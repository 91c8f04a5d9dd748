/-
Tensor streams: `TensorAssembler`, `TensorInbox` and `receive_tensor`.

A request runs in two steps, because it holds one lock at a time: under the first its frame is accepted and the frames that
became ready are handed to it (`accept`), under the second it appends them to what is delivered (`append`). Between the two
a request has its frames `inHand`, and the order in which requests reach the second lock is anyone's. `take` is
`take_delivered`.

What is certain in every run is that the frames of a stream that have left its assembler are 0, 1, 2 and so on. They are
also taken in that order if no request appends while one that was accepted before it holds frames of the same stream
(`InTurn`).
-/
import Hocmesh.Base.Along
import Hocmesh.Base.Check
import Hocmesh.Base.Table

namespace Hocmesh.Transport

open Hocmesh.Base
open Std (ExtTreeMap LawfulEqOrd)

structure TensorFrame where
  jobId : String
  streamId : String
  sequence : ℕ
  shape : List ℕ
  dtype : String
  payloadSha256 : String
  payload : List UInt8
deriving DecidableEq

/-- the stream a frame is of -/
def TensorFrame.key (f : TensorFrame) : String × String := (f.jobId, f.streamId)

section

variable (sha256 : List UInt8 → String)

/-- `TensorFrame::validate` -/
def TensorFrame.validate (f : TensorFrame) : Check Unit := do
  bailIf (f.jobId = "" ∨ f.streamId = "") "tensor route is empty"
  bailIf (f.shape = [] ∨ ∃ n ∈ f.shape, n = 0) "invalid tensor shape"
  bailIf (f.dtype = "") "tensor dtype is empty"
  bailIf (sha256 f.payload ≠ f.payloadSha256) "tensor checksum mismatch"

/-! ## One stream -/

structure TensorAssembler where
  nextSequence : ℕ
  maxReorderWindow : ℕ
  pending : Table ℕ TensorFrame

namespace TensorAssembler

variable (a : TensorAssembler)

/-- `TensorAssembler::new` -/
def new (maxReorderWindow : ℕ) : Check TensorAssembler := do
  bailIf (maxReorderWindow = 0) "reorder window must be positive"
  pure ⟨0, maxReorderWindow, ∅⟩

/-- one past the last sequence within the window; the sum saturates -/
def windowEnd : ℕ := min (a.nextSequence + a.maxReorderWindow) (2 ^ 64 - 1)

/-- `while let Some(frame) = pending.remove(&next_sequence)`, for as many rounds as there can be -/
def drain : ℕ → TensorAssembler → List TensorFrame × TensorAssembler
  | 0, a => ([], a)
  | rounds + 1, a =>
    match a.pending[a.nextSequence]? with
    | none => ([], a)
    | some frame =>
      let rest := drain rounds { a with pending := a.pending.erase a.nextSequence, nextSequence := a.nextSequence + 1 }
      (frame :: rest.1, rest.2)

/-- `TensorAssembler::accept` -/
def accept (frame : TensorFrame) : Check (List TensorFrame × TensorAssembler) := do
  frame.validate sha256
  bailIf (frame.sequence < a.nextSequence) "replayed tensor frame"
  bailIf (a.windowEnd ≤ frame.sequence) "tensor frame exceeds reorder window"
  bailIf (a.pending.contains frame.sequence = true) "duplicate tensor frame"
  let inserted := { a with pending := a.pending.insert frame.sequence frame }
  pure (inserted.drain inserted.pending.size)

/-- what is pending is of one stream, each frame under its sequence, none of them next and none delivered -/
structure Sound (key : String × String) : Prop where
  window : a.maxReorderWindow = 1024
  pending : ∀ (q : ℕ) (f : TensorFrame), a.pending[q]? = some f → f.sequence = q ∧ f.key = key ∧ a.nextSequence < q

variable {a} {sha256} {key : String × String}

/-- a loop lets the frames go that are next, one after another, and ends at one that is missing -/
theorem drain_spec {rounds : ℕ} (hsize : a.pending.size ≤ rounds) (hwindow : a.maxReorderWindow = 1024)
    (h : ∀ (q : ℕ) (f : TensorFrame), a.pending[q]? = some f → f.sequence = q ∧ f.key = key ∧ a.nextSequence ≤ q) :
    ((a.drain rounds).1.map TensorFrame.sequence = List.range' a.nextSequence (a.drain rounds).1.length ∧
      (a.drain rounds).2.nextSequence = a.nextSequence + (a.drain rounds).1.length) ∧
    (∀ f ∈ (a.drain rounds).1, ∃ q : ℕ, a.pending[q]? = some f) ∧
    (a.drain rounds).2.Sound key ∧
      ∀ (q : ℕ) (f : TensorFrame), (a.drain rounds).2.pending[q]? = some f → a.pending[q]? = some f := by
  induction rounds generalizing a with
  | zero =>
    have hnone : ∀ q : ℕ, a.pending[q]? = none := by
      intro q
      have hempty : a.pending = ∅ := ExtTreeMap.eq_empty_iff_size_eq_zero.2 (Nat.le_zero.1 hsize)
      rw [hempty]
      exact ExtTreeMap.getElem?_empty
    refine ⟨⟨rfl, rfl⟩, fun f hf => absurd hf List.not_mem_nil, ⟨hwindow, fun q f hq => ?_⟩, fun q f hq => hq⟩
    have hq' : a.pending[q]? = some f := hq
    rw [hnone] at hq'
    cases hq'
  | succ rounds ih =>
    cases hnext : a.pending[a.nextSequence]? with
    | none =>
      have hstop : a.drain (rounds + 1) = ([], a) := by
        rw [drain, hnext]
      rw [hstop]
      refine ⟨⟨rfl, rfl⟩, fun f hf => absurd hf List.not_mem_nil, ⟨hwindow, fun q f hq => ?_⟩, fun q f hq => hq⟩
      obtain ⟨hseq, hkey, hle⟩ := h q f hq
      refine ⟨hseq, hkey, lt_of_le_of_ne hle fun heq => ?_⟩
      rw [← heq, hnext] at hq
      cases hq
    | some frame =>
      have hgo : a.drain (rounds + 1) =
          (frame :: (drain rounds { a with pending := a.pending.erase a.nextSequence, nextSequence := a.nextSequence + 1 }).1,
            (drain rounds { a with pending := a.pending.erase a.nextSequence, nextSequence := a.nextSequence + 1 }).2) := by
        rw [drain, hnext]
      have hmem : a.nextSequence ∈ a.pending := by
        rw [ExtTreeMap.mem_iff_isSome_getElem?, hnext]
        rfl
      have herase : ∀ (q : ℕ) (f : TensorFrame), (a.pending.erase a.nextSequence)[q]? = some f →
          q ≠ a.nextSequence ∧ a.pending[q]? = some f := by
        intro q f hq
        rw [ExtTreeMap.getElem?_erase] at hq
        by_cases heq : a.nextSequence = q
        · subst heq
          simp at hq
        · rw [if_neg (by rwa [LawfulEqOrd.compare_eq_iff_eq])] at hq
          exact ⟨fun h => heq h.symm, hq⟩
      obtain ⟨⟨hseqs, hlast⟩, hfrom, hsound, hleft⟩ :=
        @ih { a with pending := a.pending.erase a.nextSequence, nextSequence := a.nextSequence + 1 }
          (by
            show (a.pending.erase a.nextSequence).size ≤ rounds
            rw [ExtTreeMap.size_erase, if_pos (ExtTreeMap.contains_iff_mem.2 hmem)]
            omega)
          hwindow
          (fun q f hq => by
            obtain ⟨hne, hq⟩ := herase q f hq
            obtain ⟨hseq, hkey, hle⟩ := h q f hq
            exact ⟨hseq, hkey, by
              show a.nextSequence + 1 ≤ q
              omega⟩)
      rw [hgo]
      refine ⟨⟨?_, ?_⟩, ?_, hsound, fun q f hq => (herase q f (hleft q f hq)).2⟩
      · rw [List.map_cons, hseqs, (h _ _ hnext).1]
        rfl
      · rw [hlast, List.length_cons]
        dsimp only
        omega
      · intro f hf
        rcases List.mem_cons.1 hf with rfl | hf
        · exact ⟨_, hnext⟩
        · obtain ⟨q, hq⟩ := hfrom f hf
          exact ⟨q, (herase q f hq).2⟩

/-- an assembler accepts a frame that passes its own check, is within the window, and is not pending -/
theorem accept_ok {frame : TensorFrame} {r : List TensorFrame × TensorAssembler} : a.accept sha256 frame = .ok r ↔
    frame.validate sha256 = .ok () ∧ a.nextSequence ≤ frame.sequence ∧ frame.sequence < a.windowEnd ∧
      a.pending[frame.sequence]? = none ∧
      { a with pending := a.pending.insert frame.sequence frame }.drain (a.pending.insert frame.sequence frame).size = r := by
  have hcontains : ¬ a.pending.contains frame.sequence = true ↔ a.pending[frame.sequence]? = none := by
    rw [ExtTreeMap.contains_eq_isSome_getElem?, Bool.not_eq_true, Option.isSome_eq_false_iff, Option.isNone_iff_eq_none]
  simp only [accept, Base.bind_ok, bailIf_ok, pure_ok, not_lt, not_le, hcontains, exists_ok_unit_and, exists_const]

/-- what accepting a frame of the stream lets go -/
theorem accept_spec {frame : TensorFrame} {r : List TensorFrame × TensorAssembler} (h : a.Sound key) (hkey : frame.key = key)
    (hr : a.accept sha256 frame = .ok r) :
    (r.1.map TensorFrame.sequence = List.range' a.nextSequence r.1.length ∧ r.2.nextSequence = a.nextSequence + r.1.length) ∧
    (∀ f ∈ r.1, f.key = key ∧ (f = frame ∨ ∃ q : ℕ, a.pending[q]? = some f)) ∧ r.2.Sound key ∧
      ∀ (q : ℕ) (f : TensorFrame), r.2.pending[q]? = some f → f = frame ∨ a.pending[q]? = some f := by
  obtain ⟨-, hle, -, hnone, rfl⟩ := accept_ok.1 hr
  have hinsert : ∀ (q : ℕ) (f : TensorFrame), (a.pending.insert frame.sequence frame)[q]? = some f →
      (q = frame.sequence ∧ f = frame) ∨ a.pending[q]? = some f := by
    intro q f hq
    rw [Table.get_insert] at hq
    split_ifs at hq with heq
    · exact Or.inl ⟨heq.symm, (Option.some.inj hq).symm⟩
    · exact Or.inr hq
  have hall : ∀ (q : ℕ) (f : TensorFrame), (a.pending.insert frame.sequence frame)[q]? = some f →
      f.sequence = q ∧ f.key = key ∧ a.nextSequence ≤ q := by
    intro q f hq
    rcases hinsert q f hq with ⟨rfl, rfl⟩ | hq
    · exact ⟨rfl, hkey, hle⟩
    · obtain ⟨hseq, hk, hlt⟩ := h.pending q f hq
      exact ⟨hseq, hk, hlt.le⟩
  obtain ⟨hseqs, hfrom, hsound, hleft⟩ :=
    @drain_spec { a with pending := a.pending.insert frame.sequence frame } key _ le_rfl h.window hall
  refine ⟨hseqs, fun f hf => ?_, hsound, fun q f hq => (hinsert q f (hleft q f hq)).imp_left And.right⟩
  obtain ⟨q, hq⟩ := hfrom f hf
  exact ⟨(hall q f hq).2.1, (hinsert q f hq).imp And.right fun hp => ⟨q, hp⟩⟩

end TensorAssembler

/-! ## The inbox -/

/-- the inbox, the frames that requests between its two locks have in hand, oldest request first, and what was taken -/
structure Inbox where
  assemblers : String × String → Option TensorAssembler
  delivered : List TensorFrame
  inHand : List (List TensorFrame)
  taken : List TensorFrame

inductive Step where
  /-- a request under the first lock -/
  | accept (frame : TensorFrame)
  /-- a request under the second lock -/
  | append (i : ℕ)
  /-- `take_delivered` -/
  | take
deriving DecidableEq

namespace Inbox

variable (s : Inbox)

def empty : Inbox := ⟨fun _ => none, [], [], []⟩

/-- `or_insert_with(|| TensorAssembler::new(1024).unwrap())` -/
def assembler (key : String × String) : TensorAssembler := (s.assemblers key).getD ⟨0, 1024, ∅⟩

/-- what the first lock answers a frame -/
def answer (frame : TensorFrame) : Check (List TensorFrame × TensorAssembler) :=
  (s.assembler frame.key).accept sha256 frame

def step : Inbox → Step → Inbox
  | s, .accept frame =>
    match frame.validate sha256 with
    | .error _ => s
    | .ok _ =>
      match s.answer sha256 frame with
      -- the assembler of a new stream stays even if its first frame is rejected
      | .error _ => { s with assemblers := Function.update s.assemblers frame.key (some (s.assembler frame.key)) }
      | .ok (ready, a) =>
        { s with assemblers := Function.update s.assemblers frame.key (some a), inHand := s.inHand ++ [ready] }
  | s, .append i =>
    match s.inHand[i]? with
    | none => s
    | some ready => { s with delivered := s.delivered ++ ready, inHand := s.inHand.eraseIdx i }
  | s, .take => { s with delivered := [], taken := s.taken ++ s.delivered }

/-- the frames that have left the assemblers, in the order in which they will be taken if every request appends next -/
def out : List TensorFrame := s.taken ++ s.delivered ++ s.inHand.flatten

/-- the frames of one stream -/
def ofStream (key : String × String) (frames : List TensorFrame) : List TensorFrame := frames.filter fun f => f.key = key

/-- a request that appends while an older one has frames of the same stream in hand does so out of turn -/
def InTurn (s : Inbox) : Step → Prop
  | .append i => ∀ b ∈ s.inHand.take i, ∀ f ∈ b, ∀ g ∈ s.inHand[i]?.getD [], f.key ≠ g.key
  | _ => True

instance (s : Inbox) : ∀ a, Decidable (s.InTurn a)
  | .accept _ => isTrue trivial
  | .append i =>
    inferInstanceAs (Decidable (∀ b ∈ s.inHand.take i, ∀ f ∈ b, ∀ g ∈ s.inHand[i]?.getD [], f.key ≠ g.key))
  | .take => isTrue trivial

/-- what holds of every stream, whatever the order: its assembler is sound and has let as many frames go as it says -/
structure Sound (steps : List Step) : Prop where
  assembler : ∀ key, (s.assembler key).Sound key
  /-- no frame comes from nowhere -/
  pending : ∀ (key : String × String) (q : ℕ) (f : TensorFrame), (s.assembler key).pending[q]? = some f → .accept f ∈ steps
  out : ∀ f ∈ s.out, .accept f ∈ steps
  /-- the frames let go are 0, 1, 2 and so on, in some order -/
  sequences : ∀ key, ((ofStream key s.out).map TensorFrame.sequence).Perm (List.range (s.assembler key).nextSequence)

variable {s} {sha256} {steps : List Step} {key : String × String}

/-! ## One step -/

theorem ofStream_append (l₁ l₂ : List TensorFrame) : ofStream key (l₁ ++ l₂) = ofStream key l₁ ++ ofStream key l₂ :=
  List.filter_append ..

theorem ofStream_eq_nil {l : List TensorFrame} (h : ∀ f ∈ l, f.key ≠ key) : ofStream key l = [] := by
  refine List.filter_eq_nil_iff.2 fun f hf => ?_
  rw [decide_eq_true_iff]
  exact h f hf

theorem ofStream_eq_self {l : List TensorFrame} (h : ∀ f ∈ l, f.key = key) : ofStream key l = l :=
  List.filter_eq_self.2 fun f hf => decide_eq_true (h f hf)

/-- a request under the first lock changes no assembler and hands out nothing, or it is accepted -/
theorem accept_cases (s : Inbox) (frame : TensorFrame) :
    ((∀ key, (s.step sha256 (.accept frame)).assembler key = s.assembler key) ∧
      (s.step sha256 (.accept frame)).out = s.out) ∨
    ∃ ready a, s.answer sha256 frame = .ok (ready, a) ∧ (s.step sha256 (.accept frame)).assembler frame.key = a ∧
      (∀ key ≠ frame.key, (s.step sha256 (.accept frame)).assembler key = s.assembler key) ∧
        (s.step sha256 (.accept frame)).out = s.out ++ ready := by
  cases hvalid : frame.validate sha256 with
  | error e =>
    have hstep : s.step sha256 (.accept frame) = s := by
      rw [step, hvalid]
    rw [hstep]
    exact Or.inl ⟨fun _ => rfl, rfl⟩
  | ok u =>
    cases hanswer : s.answer sha256 frame with
    | error e =>
      have hstep : s.step sha256 (.accept frame) =
          { s with assemblers := Function.update s.assemblers frame.key (some (s.assembler frame.key)) } := by
        simp only [step, hvalid, hanswer]
      rw [hstep]
      refine Or.inl ⟨fun key => ?_, rfl⟩
      by_cases hkey : key = frame.key
      · subst hkey
        simp [assembler]
      · simp [assembler, Function.update_of_ne hkey]
    | ok r =>
      obtain ⟨ready, a⟩ := r
      have hstep : s.step sha256 (.accept frame) =
          { s with assemblers := Function.update s.assemblers frame.key (some a), inHand := s.inHand ++ [ready] } := by
        simp only [step, hvalid, hanswer]
      rw [hstep]
      refine Or.inr ⟨ready, a, rfl, ?_, fun key hkey => ?_, ?_⟩
      · simp [assembler]
      · simp [assembler, Function.update_of_ne hkey]
      · simp [out, List.append_assoc]

/-- a request under the second lock moves the frames it has in hand before those of the others -/
theorem append_cases (s : Inbox) (i : ℕ) :
    s.step sha256 (.append i) = s ∨
    ∃ ready, s.inHand[i]? = some ready ∧ (s.step sha256 (.append i)).assemblers = s.assemblers ∧
      s.out = s.taken ++ s.delivered ++ (s.inHand.take i).flatten ++ ready ++ (s.inHand.drop (i + 1)).flatten ∧
      (s.step sha256 (.append i)).out =
        s.taken ++ s.delivered ++ ready ++ (s.inHand.take i).flatten ++ (s.inHand.drop (i + 1)).flatten := by
  cases hready : s.inHand[i]? with
  | none =>
    left
    simp only [step, hready]
  | some ready =>
    right
    obtain ⟨hi, hget⟩ := List.getElem?_eq_some_iff.1 hready
    have hstep : s.step sha256 (.append i) = { s with delivered := s.delivered ++ ready, inHand := s.inHand.eraseIdx i } := by
      simp only [step, hready]
    have hsplit : s.inHand = s.inHand.take i ++ ready :: s.inHand.drop (i + 1) := by
      rw [← hget, ← List.drop_eq_getElem_cons hi, List.take_append_drop]
    refine ⟨ready, rfl, by rw [hstep], ?_, ?_⟩
    · conv_lhs => rw [out, hsplit]
      simp [List.append_assoc]
    · rw [hstep, out, List.eraseIdx_eq_take_drop_succ]
      simp [List.append_assoc]

/-- what accepting a frame adds to a stream: the sequences from the next on, as many as the assembler moves by -/
theorem accept_stream (h : ∀ key, (s.assembler key).Sound key) (frame : TensorFrame) (key : String × String) :
    ∃ m, (ofStream key (s.step sha256 (.accept frame)).out).map TensorFrame.sequence =
        (ofStream key s.out).map TensorFrame.sequence ++ List.range' (s.assembler key).nextSequence m ∧
      ((s.step sha256 (.accept frame)).assembler key).nextSequence = (s.assembler key).nextSequence + m := by
  rcases @accept_cases sha256 s frame with ⟨hsame, hout⟩ | ⟨ready, a, hanswer, hself, hother, hout⟩
  · refine ⟨0, ?_, ?_⟩
    · rw [hout, List.range'_zero, List.append_nil]
    · rw [hsame, Nat.add_zero]
  · obtain ⟨⟨hseqs, hnext⟩, hfrom, -, -⟩ := TensorAssembler.accept_spec (h frame.key) rfl hanswer
    rw [hout, ofStream_append, List.map_append]
    by_cases hkey : key = frame.key
    · subst hkey
      refine ⟨ready.length, ?_, ?_⟩
      · rw [ofStream_eq_self fun f hf => (hfrom f hf).1, hseqs]
      · rw [hself, hnext]
    · refine ⟨0, ?_, ?_⟩
      · rw [ofStream_eq_nil fun f hf hf' => hkey (hf'.symm.trans (hfrom f hf).1)]
        rfl
      · rw [hother key hkey, Nat.add_zero]

theorem range_add' (n m : ℕ) : List.range (n + m) = List.range n ++ List.range' n m := by
  rw [List.range_eq_range', List.range_eq_range', ← List.range'_append_1, Nat.zero_add]

theorem Sound.accept (h : s.Sound steps) (frame : TensorFrame) :
    (s.step sha256 (.accept frame)).Sound (steps ++ [.accept frame]) := by
  have hsequences : ∀ key, ((ofStream key (s.step sha256 (.accept frame)).out).map TensorFrame.sequence).Perm
      (List.range ((s.step sha256 (.accept frame)).assembler key).nextSequence) := by
    intro key
    obtain ⟨m, hseqs, hnext⟩ := @accept_stream sha256 s h.assembler frame key
    rw [hseqs, hnext, range_add']
    exact (h.sequences key).append_right _
  rcases @accept_cases sha256 s frame with ⟨hsame, hout⟩ | ⟨ready, a, hanswer, hself, hother, hout⟩
  · refine ⟨fun key => ?_, fun key q f hq => ?_, fun f hf => ?_, hsequences⟩
    · rw [hsame]
      exact h.assembler key
    · rw [hsame] at hq
      exact List.mem_append_left _ (h.pending key q f hq)
    · rw [hout] at hf
      exact List.mem_append_left _ (h.out f hf)
  · obtain ⟨-, hfrom, hsound, hleft⟩ := TensorAssembler.accept_spec (h.assembler frame.key) rfl hanswer
    have hmem : ∀ f, f = frame ∨ (∃ q : ℕ, (s.assembler frame.key).pending[q]? = some f) →
        Step.accept f ∈ steps ++ [.accept frame] := by
      rintro f (rfl | ⟨q, hq⟩)
      · simp
      · exact List.mem_append_left _ (h.pending _ q f hq)
    refine ⟨fun key => ?_, fun key q f hq => ?_, fun f hf => ?_, hsequences⟩
    · by_cases hkey : key = frame.key
      · subst hkey
        rw [hself]
        exact hsound
      · rw [hother key hkey]
        exact h.assembler key
    · by_cases hkey : key = frame.key
      · subst hkey
        rw [hself] at hq
        exact hmem f ((hleft q f hq).imp_right fun hp => ⟨q, hp⟩)
      · rw [hother key hkey] at hq
        exact List.mem_append_left _ (h.pending key q f hq)
    · rw [hout] at hf
      rcases List.mem_append.1 hf with hf | hf
      · exact List.mem_append_left _ (h.out f hf)
      · exact hmem f (hfrom f hf).2

/-- a step that leaves the assemblers, and of the frames let go changes only the order -/
theorem Sound.of_perm {s' : Inbox} {a : Step} (h : s.Sound steps) (hassemblers : s'.assemblers = s.assemblers)
    (hout : s'.out.Perm s.out) : s'.Sound (steps ++ [a]) := by
  have hsame : ∀ key, s'.assembler key = s.assembler key := by
    intro key
    rw [Inbox.assembler, hassemblers]
    rfl
  refine ⟨fun key => ?_, fun key q f hq => ?_, fun f hf => ?_, fun key => ?_⟩
  · rw [hsame]
    exact h.assembler key
  · rw [hsame] at hq
    exact List.mem_append_left _ (h.pending key q f hq)
  · exact List.mem_append_left _ (h.out f (hout.subset hf))
  · rw [hsame]
    exact ((hout.filter _).map _).trans (h.sequences key)

theorem out_take : (s.step sha256 .take).out = s.out := by
  simp [step, out]

theorem Sound.step (h : s.Sound steps) (a : Step) : (s.step sha256 a).Sound (steps ++ [a]) := by
  cases a with
  | accept frame => exact h.accept frame
  | append i =>
    rcases @append_cases sha256 s i with hsame | ⟨ready, -, hassemblers, hout, hout'⟩
    · rw [hsame]
      exact h.of_perm rfl (List.Perm.refl _)
    · refine h.of_perm hassemblers ?_
      rw [hout, hout']
      simp only [List.append_assoc]
      refine List.Perm.append_left _ (List.Perm.append_left _ ?_)
      rw [← List.append_assoc, ← List.append_assoc]
      exact List.perm_append_comm.append_right _
  | take => exact h.of_perm rfl (List.Perm.of_eq out_take)

/-- every stream in its order -/
def Ordered (s : Inbox) : Prop :=
  ∀ key, (ofStream key s.out).map TensorFrame.sequence = List.range (s.assembler key).nextSequence

/-- a request that appends in its turn leaves every stream as it was -/
theorem ofStream_append_step {i : ℕ} (hturn : s.InTurn (.append i)) (key : String × String) :
    ofStream key (s.step sha256 (.append i)).out = ofStream key s.out := by
  rcases @append_cases sha256 s i with hsame | ⟨ready, hready, -, hout, hout'⟩
  · rw [hsame]
  · rw [hout, hout']
    simp only [ofStream_append, List.append_assoc]
    by_cases hold : ofStream key (s.inHand.take i).flatten = []
    · rw [hold, List.nil_append, List.nil_append]
    · -- an older request has a frame of the stream, and so this one has none
      obtain ⟨f, hf⟩ := List.exists_mem_of_ne_nil _ hold
      obtain ⟨hf, hkey⟩ := List.mem_filter.1 hf
      obtain ⟨b, hb, hf⟩ := List.mem_flatten.1 hf
      have hkey' : f.key = key := of_decide_eq_true hkey
      have hnone : ofStream key ready = [] := ofStream_eq_nil fun g hg hg' =>
        hturn b hb f hf g (by rwa [hready]) (hkey'.trans hg'.symm)
      rw [hnone, List.nil_append, List.nil_append]

theorem Ordered.step (h : s.Sound steps) (hs : s.Ordered) {a : Step} (hturn : s.InTurn a) :
    (s.step sha256 a).Ordered := by
  intro key
  cases a with
  | accept frame =>
    obtain ⟨m, hseqs, hnext⟩ := @accept_stream sha256 s h.assembler frame key
    rw [hseqs, hnext, range_add', hs key]
  | append i =>
    have hsame : ((s.step sha256 (.append i)).assembler key) = s.assembler key := by
      rcases @append_cases sha256 s i with hsame | ⟨_, _, hassemblers, _⟩
      · rw [hsame]
      · rw [assembler, hassemblers]
        rfl
    rw [ofStream_append_step hturn, hs key, hsame]
  | take =>
    rw [out_take, hs key]
    rfl

/-! ## Every run -/

theorem empty_sound : empty.Sound [] := by
  refine ⟨fun key => ⟨rfl, fun q f hq => ?_⟩, fun key q f hq => ?_, fun f hf => ?_, fun key => List.Perm.refl _⟩
  · have hq' : (∅ : Table ℕ TensorFrame)[q]? = some f := hq
    rw [ExtTreeMap.getElem?_empty] at hq'
    cases hq'
  · have hq' : (∅ : Table ℕ TensorFrame)[q]? = some f := hq
    rw [ExtTreeMap.getElem?_empty] at hq'
    cases hq'
  · cases hf

/-- the state a run of steps ends in -/
def run (sha256 : List UInt8 → String) (steps : List Step) : Inbox := steps.foldl (step sha256) empty

theorem run_sound (steps : List Step) : (run sha256 steps).Sound steps := by
  have hfold : ∀ (steps : List Step) (s : Inbox) (pre : List Step), s.Sound pre →
      (steps.foldl (step sha256) s).Sound (pre ++ steps) := by
    intro steps
    induction steps with
    | nil =>
      intro s pre h
      simpa using h
    | cons a steps ih =>
      intro s pre h
      have hrest := ih (s.step sha256 a) (pre ++ [a]) (h.step a)
      rwa [List.append_assoc] at hrest
  exact hfold steps empty [] empty_sound

theorem run_ordered {steps : List Step} (h : Along (step sha256) InTurn empty steps) : (run sha256 steps).Ordered :=
  (Along.invariant (fun (s : Inbox) pre => s.Sound pre ∧ s.Ordered)
    (fun _ _ a hs hturn => ⟨hs.1.step a, hs.2.step hs.1 hturn⟩) steps empty [] h ⟨empty_sound, fun _ => rfl⟩).2

/-- what was taken of a stream is its frames from the first on, in their order, each of them once -/
def InOrder (s : Inbox) (key : String × String) : Prop :=
  (ofStream key s.taken).map TensorFrame.sequence = List.range (ofStream key s.taken).length

theorem Ordered.inOrder (h : s.Ordered) (key : String × String) : s.InOrder key := by
  have hall := h key
  rw [out, List.append_assoc, ofStream_append, List.map_append] at hall
  have hprefix : (ofStream key s.taken).map TensorFrame.sequence <+: List.range (s.assembler key).nextSequence :=
    ⟨_, hall⟩
  have hlen := hprefix.length_le
  rw [List.length_map, List.length_range] at hlen
  rw [InOrder, List.prefix_iff_eq_take.1 hprefix, List.length_map, List.take_range, Nat.min_eq_left hlen]

instance (s : Inbox) (key : String × String) : Decidable (s.InOrder key) :=
  inferInstanceAs (Decidable ((ofStream key s.taken).map TensorFrame.sequence = List.range (ofStream key s.taken).length))

/-- a frame that is not accepted leaves every assembler as it was -/
def RejectsCleanly (s : Inbox) : Prop :=
  ∀ frame, (∀ r, frame.validate sha256 = .ok () → s.answer sha256 frame ≠ .ok r) →
    ∀ key, (s.step sha256 (.accept frame)).assembler key = s.assembler key

/-- a valid frame of the window that has not left its assembler, and is not pending in it, is accepted -/
def AcceptsWithin (s : Inbox) : Prop :=
  ∀ frame, frame.validate sha256 = .ok () → frame.sequence < (s.assembler frame.key).windowEnd →
    (∀ f ∈ ofStream frame.key s.out, f.sequence ≠ frame.sequence) → (s.assembler frame.key).pending[frame.sequence]? = none →
      ∃ r, s.answer sha256 frame = .ok r

theorem rejectsCleanly (s : Inbox) : @RejectsCleanly sha256 s := by
  intro frame hno
  rcases @accept_cases sha256 s frame with ⟨hsame, -⟩ | ⟨ready, a, hanswer, -⟩
  · exact hsame
  · have hvalid := (TensorAssembler.accept_ok.1 hanswer).1
    exact absurd hanswer (hno _ hvalid)

theorem Sound.acceptsWithin (h : s.Sound steps) : @AcceptsWithin sha256 s := by
  intro frame hvalid hend hout hnone
  have hnext : (s.assembler frame.key).nextSequence ≤ frame.sequence := by
    by_contra hlt
    have hmem : frame.sequence ∈ (ofStream frame.key s.out).map TensorFrame.sequence :=
      (h.sequences frame.key).symm.subset (List.mem_range.2 (not_le.1 hlt))
    obtain ⟨f, hf, hseq⟩ := List.mem_map.1 hmem
    exact hout f hf hseq
  exact ⟨_, TensorAssembler.accept_ok.2 ⟨hvalid, hnext, hend, hnone, rfl⟩⟩

end Inbox

open Inbox

variable {sha256}

/-- **Streams in order.** In a run in which every request appends in its turn, what was taken of each stream is the frames
0, 1, 2 and so on, all of them frames that were sent; and a frame that is rejected leaves the assembler unchanged, while one
that is within the window, was not delivered and is not pending is accepted. -/
theorem streams_in_order {steps : List Step} (h : Along (step sha256) InTurn empty steps) :
    (∀ key, (run sha256 steps).InOrder key) ∧ (∀ f ∈ (run sha256 steps).taken, .accept f ∈ steps) ∧
      @RejectsCleanly sha256 (run sha256 steps) ∧ @AcceptsWithin sha256 (run sha256 steps) := by
  refine ⟨(run_ordered h).inOrder, fun f hf => ?_, rejectsCleanly _, (run_sound steps).acceptsWithin⟩
  exact (@run_sound sha256 steps).out f (List.mem_append_left _ (List.mem_append_left _ hf))

/-! ## Two requests -/

namespace Sample

def digest (payload : List UInt8) : String :=
  if payload = [0] then "6e340b9cffb37a989ca544e6bb780a2c78901d3fb33738768511a30617afa01d"
  else if payload = [1] then "4bf5122f344554c53bde2ebb8cd2b7e3d1600ad631c385a5d7cce23c7785459a" else ""

def frame (n : UInt8) : TensorFrame := ⟨"job", "stream", n.toNat, [1], "u8", digest [n], [n]⟩

end Sample

theorem appended_in_turn : (run Sample.digest
    [.accept (Sample.frame 0), .accept (Sample.frame 1), .append 0, .append 0, .take]).InOrder ("job", "stream") :=
  (streams_in_order (by decide)).1 ("job", "stream")

theorem appended_out_of_turn : ¬ (run Sample.digest
    [.accept (Sample.frame 0), .accept (Sample.frame 1), .append 1, .append 0, .take]).InOrder ("job", "stream") := by
  decide

end

end Hocmesh.Transport
