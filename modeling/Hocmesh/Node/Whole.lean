/-
A split model is the whole model.

The chain's stages tile the model, so one request passed down the chain is one pass of the whole model cut at the stage
boundaries (`Stage.forward_joinAll`), and an activation arrives at the next stage with the bits it was sent with. A run
is therefore in step with `generate_locally`: between two requests its sequence, with every logit it has recorded, is the
local one after as many turns, and the caches its session has on the stages are the local caches cut in the same places
(`Agrees`). Requests of other sequences are not seen, so this holds in every interleaving (`split_is_whole`), and a run
that gets its turns comes to the local result.
-/
import Hocmesh.Node.Release

namespace Hocmesh.Node

open Hocmesh.Base Hocmesh.Engine

/-! ## The local loop -/

section

variable (ar : Arith) (sha256 : List UInt8 → String) (stage : Stage) (run : Run)

theorem localAfter_succ (n : ℕ) :
    localAfter ar sha256 stage run (n + 1) = (localAfter ar sha256 stage run n).turn ar sha256 stage run :=
  Function.iterate_succ_apply' _ _ _

/-- what one turn does to the loop variables -/
theorem absorb_spec {q q' : Sequence} {logits : List F32} {g : Option Generated}
    (h : q.absorb ar sha256 run logits = .ok (q', g)) :
    q'.steps = q.steps + 1 ∧ q'.cursor = q.cursor + 1 ∧
      (g = none → q.cursor < q.tokens.length → run.prompt.length ≤ q.tokens.length →
        q.tokens.length ≤ run.prompt.length + run.maxNewTokens →
        q'.cursor < q'.tokens.length ∧ run.prompt.length ≤ q'.tokens.length ∧
          q'.tokens.length ≤ run.prompt.length + run.maxNewTokens) := by
  simp only [Sequence.absorb, bind_ok] at h
  obtain ⟨⟨next, trace⟩, -, h⟩ := h
  simp only at h
  split_ifs at h with hend hmax
  · simp only [pure_ok, Prod.mk.injEq] at h
    obtain ⟨rfl, rfl⟩ := h
    exact ⟨rfl, rfl, by simp⟩
  · simp only [pure_ok, Prod.mk.injEq] at h
    obtain ⟨rfl, rfl⟩ := h
    refine ⟨rfl, rfl, fun _ h1 h2 h3 => ?_⟩
    simp only [List.length_append, List.length_singleton]
    omega
  · simp only [pure_ok, Prod.mk.injEq] at h
    obtain ⟨rfl, rfl⟩ := h
    refine ⟨rfl, rfl, fun _ h1 h2 h3 => ?_⟩
    simp only
    omega

/-- a loop that has not returned has one token to go for every turn it has left -/
theorem localAfter_running (hp : run.prompt ≠ []) (n : ℕ) (h : (localAfter ar sha256 stage run n).outcome = none) :
    (localAfter ar sha256 stage run n).sequence.cursor = n ∧
      n < (localAfter ar sha256 stage run n).sequence.tokens.length ∧
      run.prompt.length ≤ (localAfter ar sha256 stage run n).sequence.tokens.length ∧
      (localAfter ar sha256 stage run n).sequence.tokens.length ≤ run.prompt.length + run.maxNewTokens := by
  induction n with
  | zero =>
    have hpos : 0 < run.prompt.length := List.length_pos_iff.2 hp
    exact ⟨rfl, hpos, le_rfl, Nat.le_add_right _ _⟩
  | succ n ih =>
    rw [localAfter_succ] at h ⊢
    generalize localAfter ar sha256 stage run n = l at h ih
    unfold Local.turn at h ⊢
    cases hout : l.outcome with
    | some o => rw [hout] at h; simp [hout] at h
    | none =>
      obtain ⟨h1, h2, h3, h4⟩ := ih hout
      simp only [hout] at h ⊢
      split
      · rename_i e he
        simp [he] at h
      · rename_i activation ha
        simp only [ha] at h
        split
        · rename_i e he
          simp [he] at h
        · rename_i q g hq
          simp only [hq, Option.map_eq_none_iff] at h
          simp only [bind_ok] at hq
          obtain ⟨logits, -, habsorb⟩ := hq
          obtain ⟨-, hc, hlen⟩ := absorb_spec ar sha256 run habsorb
          have := hlen h (by omega) h3 h4
          simp only
          omega

/-- **The loop returns** after a turn for every token of the prompt and every new one. -/
theorem localAfter_returns (hp : run.prompt ≠ []) :
    (localAfter ar sha256 stage run (run.prompt.length + run.maxNewTokens)).outcome ≠ none := by
  intro h
  have := localAfter_running ar sha256 stage run hp _ h
  omega

theorem localAfter_stays {n : ℕ} (h : (localAfter ar sha256 stage run n).outcome ≠ none) (m : ℕ) :
    localAfter ar sha256 stage run (n + m) = localAfter ar sha256 stage run n := by
  induction m with
  | zero => rfl
  | succ m ih =>
    rw [← Nat.add_assoc, localAfter_succ, ih]
    unfold Local.turn
    split
    · rfl
    · rename_i hnone
      exact absurd hnone h

/-- the outcome the loop comes to, at whatever turn, is what `generate_locally` returns -/
theorem generateLocally_eq {file : WeightFile} {config : ModelConfig} (hc : file.config = .ok config)
    (hl : Stage.load file 0 config.blockCount.toNat = .ok stage) (hp : run.prompt ≠ []) {n : ℕ} {o : Check Generated}
    (h : (localAfter ar sha256 stage run n).outcome = some o) : generateLocally ar sha256 file run = o := by
  have hsome : (localAfter ar sha256 stage run n).outcome ≠ none := by simp [h]
  have hend := localAfter_returns ar sha256 stage run hp
  have hsame : (localAfter ar sha256 stage run (run.prompt.length + run.maxNewTokens)).outcome = some o := by
    rcases le_total n (run.prompt.length + run.maxNewTokens) with hle | hle
    · obtain ⟨m, hm⟩ := Nat.exists_eq_add_of_le hle
      rw [hm, localAfter_stays ar sha256 stage run hsome, h]
    · obtain ⟨m, hm⟩ := Nat.exists_eq_add_of_le hle
      rw [← h, hm, localAfter_stays ar sha256 stage run hend]
  have hbail : bailIf (run.prompt = []) "the prompt has no tokens" = .ok () := by simp [hp]
  unfold generateLocally
  rw [hbail, hc]
  simp only [bind, Except.bind, hl, hsame]

end

/-! ## One stage -/

/-- a sequence the stage knows, or has room for -/
def StageState.HasRoom (s : StageState) (id : String) : Prop := s.sessions[id]?.isSome ∨ s.sessions.size < maxSessions

instance (s : StageState) (id : String) : Decidable (s.HasRoom id) := inferInstanceAs (Decidable (_ ∨ _))

/-- the caches a sequence has at a stage, empty ones before its first token -/
def View.session (v : View) : Session := v.held.getD v.stage.session

theorem session_of_room {s : StageState} {id : String} (h : s.HasRoom id) :
    s.session id = .ok (s.view id).session := by
  unfold StageState.session View.session StageState.view
  cases hget : s.sessions[id]? with
  | some cache => rfl
  | none =>
    have hroom : ¬ maxSessions ≤ s.sessions.size := by
      rcases h with h | h
      · rw [hget] at h
        cases h
      · omega
    exact if_neg hroom

/-- what a stage makes of a request that brings it an activation of a sequence it has room for -/
theorem serve_entered (ar : Arith) {s : StageState} {r : Request} {id : String} {a : Activation} (hroom : s.HasRoom id)
    (hid : Travels id) (hr : s.entering r = .ok (id, a)) :
    (s.serve ar r).1.view id = { s.view id with held := some (s.stage.forward ar (s.view id).session a).1 } ∧
      (s.serve ar r).2 = match (s.stage.forward ar (s.view id).session a).2 with
        | .error e => .answer (.error e)
        | .ok output => match s.next with
          | none => .answer ((s.stage.logits ar output).map encodeF32)
          | some address => .pass address (.forward (some id) output.toBytes) := by
  have hnot : ∀ header, r ≠ .reset header := by
    intro header heq
    rw [heq] at hr
    cases hr
  have hsession := session_of_room hroom
  rw [StageState.serve_entering ar hnot, hr]
  simp only
  constructor
  · rw [StageState.advance_fst ar hsession]
    simp [StageState.view]
  · simp only [StageState.advance, hsession]
    cases hf : (s.stage.forward ar (s.view id).session a).2 with
    | error e => rfl
    | ok output =>
      cases hn : s.next with
      | none => rfl
      | some address => simp only [header_of_travels hid, if_true]

/-! ## A request on its way down the chain -/

/-- the caches a sequence has along the chain -/
def cachesOf (views : List View) : List Session := views.map View.session

/-- the caches along the chain are the caches of one session cut at the stage boundaries -/
def CutOf (stages : List Stage) (session : Session) (sessions : List Session) : Prop :=
  List.Forall₂ Stage.Fits stages sessions ∧ session.caches = (sessions.map Session.caches).flatten

/-- a request under way: the stages above the `k`-th have passed it and written, the others hold what they held -/
inductive Reached (ar : Arith) (stages : List Stage) (embedded : Check Activation) (sent : Request) (id : String)
    (old : List Session) : ℕ → Request → List Session → Prop where
  | sent : Reached ar stages embedded sent id old 0 sent old
  | passed {k : ℕ} {a₀ a : Activation} {written : List Session} (hk : 0 < k) (hembed : embedded = .ok a₀)
      (hpass : cascade (fun t => t.forward ar) (stages.take k) (old.take k) a₀ = (written, .ok a)) :
      Reached ar stages embedded sent id old k (.forward (some id) a.toBytes) (written ++ old.drop k)

theorem embed_tokens {s : Stage} {token : UInt32} {position : UInt32} {a : Activation}
    (h : s.embed [token] position = .ok a) : a.tokens = 1 := by
  simp only [Stage.embed, bind_ok, pure_ok] at h
  obtain ⟨table, -, rows, -, rfl⟩ := h
  rfl

/-- the activation that is passed down a chain keeps its number of tokens -/
theorem cascade_tokens (ar : Arith) {stages : List Stage} {sessions sessions' : List Session} {a b : Activation}
    (h : cascade (fun t : Stage => t.forward ar) stages sessions a = (sessions', .ok b)) : b.tokens = a.tokens := by
  refine cascade_keeps _ (fun x : Activation => x.tokens = a.tokens) ?_ _ _ _ _ _ rfl h
  intro t c x c' y hx hy
  rw [(forward_shape hy).2.1, hx]

/-- an activation of one token survives the wire -/
theorem fromBytes_single {a : Activation} (h : a.tokens = 1) : Activation.fromBytes a.toBytes = .ok a := by
  refine Activation.fromBytes_toBytes a ?_ ?_ ?_
  · omega
  · omega
  · rw [h]
    exact one_dvd _

/-- What a request brings the stage it has reached is what the stages above have made of the token. -/
theorem reached_entering (ar : Arith) {stages : List Stage} {token position : UInt32} {id : String} {old held : List Session}
    {k : ℕ} {r : Request} {s₀ : Stage} {s : StageState} (hid : Travels id) (hfirst : s₀.start = 0)
    (hs : k = 0 → s.stage = s₀)
    (h : Reached ar stages (s₀.embed [token] position) (.token token position (some id)) id old k r held) :
    (∃ e, s₀.embed [token] position = .error e ∧ s.serve ar r = (s, .answer (.error e))) ∨
      ∃ a₀ a written, s₀.embed [token] position = .ok a₀ ∧ s.entering r = .ok (id, a) ∧
        cascade (fun t => t.forward ar) (stages.take k) (old.take k) a₀ = (written, .ok a) ∧
        held = written ++ old.drop k := by
  cases h with
  | sent =>
    have hentering : s.entering (.token token position (some id)) =
        (s₀.embed [token] position).map fun a => (id, a) := by
      have hf : s₀.isFirst = true := by simp [Stage.isFirst, hfirst]
      simp only [StageState.entering, hs rfl, bailIf, hf, not_true_eq_false, if_false]
      cases s₀.embed [token] position <;> rfl
    cases hembed : s₀.embed [token] position with
    | error e =>
      left
      refine ⟨e, rfl, ?_⟩
      rw [StageState.serve_entering ar (by simp), hentering, hembed]
      rfl
    | ok a₀ =>
      right
      refine ⟨a₀, a₀, [], rfl, ?_, by simp, by simp⟩
      rw [hentering, hembed]
      rfl
  | passed hk hembed hpass =>
    rename_i a₀ a written
    right
    refine ⟨a₀, a, written, hembed, ?_, hpass, rfl⟩
    have htokens : a.tokens = 1 := (cascade_tokens ar hpass).trans (embed_tokens hembed)
    simp only [StageState.entering, fromBytes_single htokens, sessionOf_travels hid]
    rfl

/-! ## In step with the local loop -/

/-- the same result, or a failure on both sides -/
def Same (o o' : Check Generated) : Prop :=
  match o, o' with
  | .ok g, .ok g' => g = g'
  | .error _, .error _ => True
  | _, _ => False

section

variable (ar : Arith) (sha256 : List UInt8 → String)

theorem decode_encode (values : List F32) : decodeF32 (encodeF32 values) = .ok values := by
  simp [decodeF32, encodeF32, bailIf]

/-- what a run makes of an answer is what the local loop makes of the logits in it -/
theorem receive_eq (c : Client) (logits : Check (List F32)) :
    (∃ e e', logits >>= c.sequence.absorb ar sha256 c.run = .error e ∧
        c.receive ar sha256 (logits.map encodeF32) = c.settle (.error e')) ∨
      (∃ q, logits >>= c.sequence.absorb ar sha256 c.run = .ok (q, none) ∧
        c.receive ar sha256 (logits.map encodeF32) = { c with sequence := q, phase := .sending }) ∨
      ∃ q g, logits >>= c.sequence.absorb ar sha256 c.run = .ok (q, some g) ∧
        c.receive ar sha256 (logits.map encodeF32) = { c with sequence := q }.settle (.ok g) := by
  cases logits with
  | error e => exact Or.inl ⟨e, answered "head" e, rfl, rfl⟩
  | ok l =>
    have hdecode : mapErr (answered "head") (Except.map encodeF32 (.ok l : Check (List F32))) >>= decodeF32 = .ok l :=
      decode_encode l
    unfold Client.receive
    rw [hdecode]
    have hbind : ((.ok l : Check (List F32)) >>= c.sequence.absorb ar sha256 c.run) =
      c.sequence.absorb ar sha256 c.run l := rfl
    rw [hbind]
    cases habsorb : c.sequence.absorb ar sha256 c.run l with
    | error e => exact Or.inl ⟨e, e, rfl, rfl⟩
    | ok r =>
      obtain ⟨q, g⟩ := r
      cases g with
      | none => exact Or.inr (Or.inl ⟨q, rfl, rfl⟩)
      | some g => exact Or.inr (Or.inr ⟨q, g, rfl, rfl⟩)

variable {ar sha256}

theorem turn_embed_error {stage : Stage} {run : Run} {l : Local} {token : UInt32} {e : String} (h : l.outcome = none)
    (htoken : index l.sequence.tokens l.sequence.cursor = .ok token)
    (he : stage.embed [token] l.sequence.position = .error e) :
    l.turn ar sha256 stage run = { l with outcome := some (.error e) } := by
  have hbind : (index l.sequence.tokens l.sequence.cursor >>= fun token => stage.embed [token] l.sequence.position) =
      .error e := by
    rw [htoken]
    exact he
  simp only [Local.turn, h, hbind]

theorem turn_embedded {stage : Stage} {run : Run} {l : Local} {token : UInt32} {a : Activation} (h : l.outcome = none)
    (htoken : index l.sequence.tokens l.sequence.cursor = .ok token)
    (ha : stage.embed [token] l.sequence.position = .ok a) :
    l.turn ar sha256 stage run =
      match ((stage.forward ar l.session a).2 >>= stage.logits ar) >>= l.sequence.absorb ar sha256 run with
      | .error e => ⟨(stage.forward ar l.session a).1, l.sequence, some (.error e)⟩
      | .ok (q, generated) => ⟨(stage.forward ar l.session a).1, q, generated.map .ok⟩ := by
  have hbind : (index l.sequence.tokens l.sequence.cursor >>= fun token => stage.embed [token] l.sequence.position) =
      .ok a := by
    rw [htoken]
    exact ha
  rcases hout : ((stage.forward ar l.session a).2 >>= stage.logits ar) >>= l.sequence.absorb ar sha256 run with e | ⟨q, generated⟩
  · simp only [Local.turn, h, hbind, hout]
  · simp only [Local.turn, h, hbind, hout]

end

section Chain

variable (ar : Arith) (sha256 : List UInt8 → String) (file : WeightFile) (s₀ : Stage) (rest : List Stage)

/-- the local loop a run is measured against, after as many turns as the run has recorded -/
def Client.reference (c : Client) : Local :=
  localAfter ar sha256 (Stage.joinAll s₀ rest) c.run c.sequence.steps

/-- a run that has not come to an outcome, beside a local loop that has not either -/
structure Going (c : Client) : Prop where
  outcome : c.outcome = none
  prompt : c.run.prompt ≠ []
  reference : (c.reference ar sha256 s₀ rest).outcome = none

/-- **A run in step with the local loop**, as its own session sees the chain. -/
def Agrees (views : List View) (c : Client) : Prop :=
  c.sequence = (c.reference ar sha256 s₀ rest).sequence ∧
  match c.phase with
  | .sending => Going ar sha256 s₀ rest c ∧
      CutOf (s₀ :: rest) (c.reference ar sha256 s₀ rest).session (cachesOf views)
  | .waiting k r => Going ar sha256 s₀ rest c ∧ k < (s₀ :: rest).length ∧ ∃ token old,
      index c.sequence.tokens c.sequence.cursor = .ok token ∧
      CutOf (s₀ :: rest) (c.reference ar sha256 s₀ rest).session old ∧
      Reached ar (s₀ :: rest) (s₀.embed [token] c.sequence.position)
        (.token token c.sequence.position (some c.run.session)) c.run.session old k r (cachesOf views)
  | _ => ∃ o, c.outcome = some o ∧ Same o (generateLocally ar sha256 file c.run)

/-- how many turns of its own a run has had, on a chain of `n` stages -/
def Client.progress (n : ℕ) (c : Client) : ℕ :=
  c.sequence.steps * (n + 1) + match c.phase with
    | .waiting k _ => k + 1
    | _ => 0

variable {ar sha256 file s₀ rest}

/-- the chain is the model of the file, cut into stages -/
structure Tiles (file : WeightFile) (s₀ : Stage) (rest : List Stage) : Prop where
  first : s₀.start = 0
  whole : ∃ config, file.config = .ok config ∧ (∀ t ∈ s₀ :: rest, t.config.Alike config) ∧
    Stage.load file 0 config.blockCount.toNat = .ok (Stage.joinAll s₀ rest)

/-- once the local loop has an outcome, it is what `generate_locally` returns -/
theorem Tiles.outcome (ht : Tiles file s₀ rest) {run : Run} (hp : run.prompt ≠ []) {n : ℕ} {o : Check Generated}
    (h : (localAfter ar sha256 (Stage.joinAll s₀ rest) run n).outcome = some o) :
    generateLocally ar sha256 file run = o := by
  obtain ⟨config, hconfig, -, hload⟩ := ht.whole
  exact generateLocally_eq ar sha256 _ run hconfig hload hp h

/-- a run that fails where the local loop fails -/
theorem agrees_error (ht : Tiles file s₀ rest) {views : List View} {c : Client} {e e' : String} (hg : Going ar sha256 s₀ rest c)
    (hseq : c.sequence = (c.reference ar sha256 s₀ rest).sequence)
    (hturn : ((c.reference ar sha256 s₀ rest).turn ar sha256 (Stage.joinAll s₀ rest) c.run).outcome = some (.error e)) :
    Agrees ar sha256 file s₀ rest views (c.settle (.error e')) := by
  refine ⟨hseq, .error e', rfl, ?_⟩
  have hout : generateLocally ar sha256 file c.run = .error e := by
    refine ht.outcome hg.prompt (n := c.sequence.steps + 1) ?_
    rw [localAfter_succ]
    exact hturn
  change Same (.error e') (generateLocally ar sha256 file c.run)
  rw [hout]
  trivial

/-- a run that is answered as the local loop answers itself -/
theorem agrees_answer (ht : Tiles file s₀ rest) {views : List View} {c : Client} (logits : Check (List F32))
    {session : Session} (hg : Going ar sha256 s₀ rest c) (hseq : c.sequence = (c.reference ar sha256 s₀ rest).sequence)
    (hcut : CutOf (s₀ :: rest) session (cachesOf views))
    (hturn : (c.reference ar sha256 s₀ rest).turn ar sha256 (Stage.joinAll s₀ rest) c.run =
      match logits >>= c.sequence.absorb ar sha256 c.run with
      | .error e => ⟨session, c.sequence, some (.error e)⟩
      | .ok (q, generated) => ⟨session, q, generated.map .ok⟩) :
    Agrees ar sha256 file s₀ rest views (c.receive ar sha256 (logits.map encodeF32)) ∧
      ((c.receive ar sha256 (logits.map encodeF32)).outcome = none →
        (c.receive ar sha256 (logits.map encodeF32)).phase = .sending ∧
        (c.receive ar sha256 (logits.map encodeF32)).sequence.steps = c.sequence.steps + 1) := by
  rcases receive_eq ar sha256 c logits with ⟨e, e', habsorb, hrec⟩ | ⟨q, habsorb, hrec⟩ | ⟨q, g, habsorb, hrec⟩
  · rw [hrec]
    refine ⟨agrees_error ht hg hseq (e := e) ?_, fun h => by cases h⟩
    rw [hturn, habsorb]
  · have hsteps : q.steps = c.sequence.steps + 1 := by
      simp only [bind_ok] at habsorb
      obtain ⟨l, -, hl⟩ := habsorb
      exact (absorb_spec ar sha256 c.run hl).1
    have hnext : localAfter ar sha256 (Stage.joinAll s₀ rest) c.run q.steps = ⟨session, q, none⟩ := by
      rw [hsteps, localAfter_succ]
      refine Eq.trans hturn ?_
      rw [habsorb]
      rfl
    rw [hrec]
    refine ⟨⟨?_, ⟨hg.outcome, hg.prompt, ?_⟩, ?_⟩, fun _ => ⟨rfl, hsteps⟩⟩
    · simp only [Client.reference, hnext]
    · simp only [Client.reference, hnext]
    · simp only [Client.reference, hnext]
      exact hcut
  · have hsteps : q.steps = c.sequence.steps + 1 := by
      simp only [bind_ok] at habsorb
      obtain ⟨l, -, hl⟩ := habsorb
      exact (absorb_spec ar sha256 c.run hl).1
    have hnext : localAfter ar sha256 (Stage.joinAll s₀ rest) c.run q.steps = ⟨session, q, some (.ok g)⟩ := by
      rw [hsteps, localAfter_succ]
      refine Eq.trans hturn ?_
      rw [habsorb]
      rfl
    rw [hrec]
    refine ⟨⟨?_, .ok g, rfl, ?_⟩, fun h => by cases h⟩
    · simp only [Client.settle, Client.reference, hnext]
    · have hout : generateLocally ar sha256 file c.run = .ok g :=
        ht.outcome hg.prompt (n := q.steps) (by rw [hnext])
      change Same (.ok g) (generateLocally ar sha256 file c.run)
      rw [hout]
      rfl

theorem cascade_fits {stages : List Stage} {sessions : List Session} (h : List.Forall₂ Stage.Fits stages sessions)
    (a : Activation) :
    List.Forall₂ Stage.Fits stages (cascade (fun t => t.forward ar) stages sessions a).1 := by
  induction h generalizing a with
  | nil => exact List.Forall₂.nil
  | cons hfit hrest ih =>
    rename_i t c ts cs
    have hfit' := Stage.fits_forward ar t c a hfit
    rw [cascade_cons]
    cases hf : t.forward ar c a with
    | mk c' r =>
      rw [hf] at hfit'
      cases r with
      | error e => exact List.Forall₂.cons hfit' hrest
      | ok b => exact List.Forall₂.cons hfit' (ih b)

theorem set_middle {α : Type} (l₁ l₂ : List α) {k : ℕ} (hk : l₁.length = k) (hlen : k < l₂.length) (x : α) :
    (l₁ ++ l₂.drop k).set k x = l₁ ++ [x] ++ l₂.drop (k + 1) := by
  rw [List.set_append_right _ _ (by omega), hk, Nat.sub_self, List.drop_eq_getElem_cons hlen, List.set_cons_zero,
    List.append_assoc]
  rfl

/-- the whole model's pass, when the chain has passed the token on to the end or failed on the way -/
theorem whole_forward (halike : ∃ config, ∀ t ∈ s₀ :: rest, t.config.Alike config) {session : Session}
    {old written : List Session} (hcut : CutOf (s₀ :: rest) session old) {a : Activation} {r : Check Activation}
    (h : cascade (fun t => t.forward ar) (s₀ :: rest) old a = (written, r)) :
    (Stage.joinAll s₀ rest).forward ar session a = (⟨(written.map Session.caches).flatten⟩, r) ∧
      CutOf (s₀ :: rest) ⟨(written.map Session.caches).flatten⟩ written := by
  obtain ⟨config, halike⟩ := halike
  obtain ⟨caches⟩ := session
  obtain ⟨hfit, rfl⟩ := hcut
  have hfit' : List.Forall₂ Stage.Fits (s₀ :: rest) (cascade (fun t => t.forward ar) (s₀ :: rest) old a).1 :=
    cascade_fits hfit a
  rw [h] at hfit'
  refine ⟨?_, hfit', rfl⟩
  rw [Stage.forward_joinAll ar s₀ rest old a halike hfit, h]

/-- the stage at the end of the chain is the one with the head -/
theorem whole_logits (halike : ∃ config, ∀ t ∈ s₀ :: rest, t.config.Alike config) {k : ℕ} {t : Stage}
    (ht : (s₀ :: rest)[k]? = some t) (hk : k + 1 = (s₀ :: rest).length) (a : Activation) :
    (Stage.joinAll s₀ rest).logits ar a = t.logits ar a := by
  obtain ⟨config, halike⟩ := halike
  rw [Stage.logits_joinAll ar s₀ rest a halike]
  have hlast : (s₀ :: rest).getLast (by simp) = t := by
    rw [List.getLast_eq_getElem]
    obtain ⟨hlt, hget⟩ := List.getElem?_eq_some_iff.1 ht
    rw [← hget]
    congr 1
    omega
  rw [hlast]

/-- **A run's request is served in step.** The stage it has reached fails where the whole model's pass fails, hands on
what the whole model's next block is given, or answers with the logits of the whole model. -/
theorem turn_waiting (ht : Tiles file s₀ rest) {chain : List StageState} (hw : Wired chain)
    (hstages : chain.map StageState.stage = s₀ :: rest) {c : Client} (hid : Travels c.run.session) {k : ℕ} {r : Request}
    (hphase : c.phase = .waiting k r) (hroom : ∀ s, chain[k]? = some s → s.HasRoom c.run.session)
    (h : Agrees ar sha256 file s₀ rest (viewOf c.run.session chain) c) :
    Agrees ar sha256 file s₀ rest (viewOf c.run.session (c.turn ar sha256 chain).1) (c.turn ar sha256 chain).2 ∧
      ((c.turn ar sha256 chain).2.outcome = none → c.outcome = none ∧
        (c.turn ar sha256 chain).2.progress chain.length = c.progress chain.length + 1) := by
  obtain ⟨hseq, h⟩ := h
  rw [hphase] at h
  obtain ⟨hg, hk, token, old, htoken, hcut, hreach⟩ := h
  have halike : ∃ config, ∀ t ∈ s₀ :: rest, t.config.Alike config := ht.whole.imp fun _ hc => hc.2.1
  have hlen : chain.length = (s₀ :: rest).length := by rw [← hstages, List.length_map]
  obtain ⟨s, hs⟩ : ∃ s, chain[k]? = some s := ⟨_, List.getElem?_eq_getElem (by omega)⟩
  have hstage : (s₀ :: rest)[k]? = some s.stage := by
    rw [← hstages, List.getElem?_map, hs]
    rfl
  have htoken' : index (c.reference ar sha256 s₀ rest).sequence.tokens (c.reference ar sha256 s₀ rest).sequence.cursor =
      .ok token := by rw [← hseq]; exact htoken
  have hzero : k = 0 → s.stage = s₀ := by
    intro hk0
    rw [hk0] at hstage
    exact (Option.some.inj hstage).symm
  rcases reached_entering ar hid ht.first hzero hreach with ⟨e, hembed, hserve⟩ | ⟨a₀, a, written, hembed, hent, hpass, hheld⟩
  · have hturn : c.turn ar sha256 chain = (chain.set k s, c.receive ar sha256 (.error e)) := by
      simp only [Client.turn, hphase, hs, hserve]
    rw [hturn]
    refine ⟨agrees_error ht hg hseq (e := e) ?_, fun hnone => by cases hnone⟩
    rw [turn_embed_error hg.reference htoken' (by rw [← hseq, Stage.embed_joinAll]; exact hembed)]
  · have hold : old.length = (s₀ :: rest).length := (List.Forall₂.length_eq hcut.1).symm
    have hwritten : written.length = k := by
      have hl := length_cascade (fun t : Stage => t.forward ar) ((s₀ :: rest).take k) (old.take k) a₀
      rw [hpass, List.length_take] at hl
      simp only at hl
      omega
    -- the caches the stage works on are the ones it had when the request was sent
    have hcache : old[k]? = some (s.view c.run.session).session := by
      have hget : (cachesOf (viewOf c.run.session chain))[k]? = some (s.view c.run.session).session := by
        simp [cachesOf, viewOf_get hs]
      rw [hheld, List.getElem?_append_right (by omega), hwritten, Nat.sub_self, List.getElem?_drop] at hget
      simpa using hget
    obtain ⟨hview, hreply⟩ := serve_entered ar (hroom s hs) hid hent
    have hstep := cascade_step (fun t : Stage => t.forward ar) (by omega) hstage hcache hpass
    have hviews : cachesOf (viewOf c.run.session (chain.set k (s.serve ar r).1)) =
        written ++ [(s.stage.forward ar (s.view c.run.session).session a).1] ++ old.drop (k + 1) := by
      rw [viewOf, List.map_set, cachesOf, List.map_set, hview]
      have hbefore : (chain.map (StageState.view c.run.session)).map View.session = written ++ old.drop k := hheld
      rw [hbefore]
      exact set_middle written old hwritten (by omega) _
    have hembed' : (Stage.joinAll s₀ rest).embed [token] (c.reference ar sha256 s₀ rest).sequence.position = .ok a₀ := by
      rw [← hseq, Stage.embed_joinAll]
      exact hembed
    cases hf : (s.stage.forward ar (s.view c.run.session).session a).2 with
    | error e =>
      rw [hf] at hreply hstep
      have hturn : c.turn ar sha256 chain = (chain.set k (s.serve ar r).1, c.receive ar sha256 (.error e)) := by
        simp only [Client.turn, hphase, hs]
        rw [show s.serve ar r = ((s.serve ar r).1, .answer (.error e)) from Prod.ext rfl hreply]
      rw [hturn]
      refine ⟨agrees_error ht hg hseq (e := e) ?_, fun hnone => by cases hnone⟩
      have hall := cascade_stop _ (by omega) hstep
      rw [turn_embedded hg.reference htoken' hembed', (whole_forward halike hcut hall).1]
      rfl
    | ok output =>
      rw [hf] at hreply hstep
      cases hnext : s.next with
      | none =>
        rw [hnext] at hreply
        have hlast : k + 1 = (s₀ :: rest).length := by rw [← hlen]; exact (hw k s hs).1 hnext
        have hturn : c.turn ar sha256 chain =
            (chain.set k (s.serve ar r).1, c.receive ar sha256 ((s.stage.logits ar output).map encodeF32)) := by
          simp only [Client.turn, hphase, hs]
          rw [show s.serve ar r = ((s.serve ar r).1, .answer ((s.stage.logits ar output).map encodeF32)) from
            Prod.ext rfl hreply]
        have hall : cascade (fun t : Stage => t.forward ar) (s₀ :: rest) old a₀ =
            (written ++ [(s.stage.forward ar (s.view c.run.session).session a).1], .ok output) := by
          rw [← hstep, List.take_of_length_le (by omega), List.take_of_length_le (by omega)]
        obtain ⟨hforward, hcut'⟩ := whole_forward halike hcut hall
        rw [List.drop_eq_nil_of_le (by omega), List.append_nil] at hviews
        rw [hturn]
        simp only
        have hanswer := agrees_answer ht (s.stage.logits ar output) hg hseq (by rw [hviews]; exact hcut') (by
          rw [turn_embedded hg.reference htoken' hembed', hforward, ← hseq, ← whole_logits halike hstage hlast]
          rfl)
        refine ⟨hanswer.1, fun hnone => ⟨hg.outcome, ?_⟩⟩
        obtain ⟨hp, hsteps⟩ := hanswer.2 hnone
        simp only [Client.progress, hp, hsteps, hphase]
        rw [hlen, ← hlast]
        ring
      | some address =>
        rw [hnext] at hreply
        have hmore : k + 1 ≠ (s₀ :: rest).length := by
          intro heq
          rw [← hlen] at heq
          rw [(hw k s hs).2 heq] at hnext
          cases hnext
        have hturn : c.turn ar sha256 chain = (chain.set k (s.serve ar r).1,
            { c with phase := .waiting (k + 1) (.forward (some c.run.session) output.toBytes) }) := by
          simp only [Client.turn, hphase, hs]
          rw [show s.serve ar r = ((s.serve ar r).1, .pass address (.forward (some c.run.session) output.toBytes)) from
            Prod.ext rfl hreply]
        rw [hturn]
        refine ⟨⟨hseq, ⟨hg.outcome, hg.prompt, hg.reference⟩, by omega, token, old, htoken, hcut, ?_⟩,
          fun _ => ⟨hg.outcome, ?_⟩⟩
        · simp only
          rw [hviews]
          exact Reached.passed (by omega) hembed hstep
        · simp only [Client.progress, hphase]
          omega

/-- between two answers a run always has a token to send -/
theorem Going.token {c : Client} (hg : Going ar sha256 s₀ rest c)
    (hseq : c.sequence = (c.reference ar sha256 s₀ rest).sequence) :
    ∃ token, index c.sequence.tokens c.sequence.cursor = .ok token := by
  obtain ⟨h1, h2, -, -⟩ := localAfter_running ar sha256 _ c.run hg.prompt c.sequence.steps hg.reference
  have hlt : c.sequence.cursor < c.sequence.tokens.length := by
    rw [hseq]
    exact h1.trans_lt h2
  exact ⟨_, by rw [index, List.getElem?_eq_getElem hlt]; rfl⟩

/-- **A run's own turn keeps it in step**, and gets it one event further unless it has come to an outcome. -/
theorem turn_agrees (ht : Tiles file s₀ rest) {chain : List StageState} (hw : Wired chain)
    (hstages : chain.map StageState.stage = s₀ :: rest) {c : Client} (hid : Travels c.run.session)
    (hroom : ∀ k r, c.phase = .waiting k r → ∀ s, chain[k]? = some s → s.HasRoom c.run.session)
    (h : Agrees ar sha256 file s₀ rest (viewOf c.run.session chain) c) :
    Agrees ar sha256 file s₀ rest (viewOf c.run.session (c.turn ar sha256 chain).1) (c.turn ar sha256 chain).2 ∧
      ((c.turn ar sha256 chain).2.outcome = none → c.outcome = none ∧
        (c.turn ar sha256 chain).2.progress chain.length = c.progress chain.length + 1) := by
  cases hphase : c.phase with
  | sending =>
    obtain ⟨hseq, h⟩ := h
    rw [hphase] at h
    obtain ⟨hg, hcut⟩ := h
    obtain ⟨token, htoken⟩ := hg.token hseq
    have hturn : c.turn ar sha256 chain =
        (chain, { c with phase := .waiting 0 (.token token c.sequence.position (some c.run.session)) }) := by
      simp only [Client.turn, hphase, htoken]
    rw [hturn]
    refine ⟨⟨hseq, ⟨hg.outcome, hg.prompt, hg.reference⟩, by simp, token, _, htoken, hcut, Reached.sent⟩,
      fun _ => ⟨hg.outcome, ?_⟩⟩
    simp only [Client.progress, hphase]
  | waiting k r => exact turn_waiting ht hw hstages hid hphase (hroom k r hphase) h
  | releasing k r =>
    obtain ⟨hseq, hend⟩ := h
    rw [hphase] at hend
    obtain ⟨o, ho, hsame⟩ := hend
    -- the outcome stands; all that moves is the reset
    have hstill : ∃ phase, (c.turn ar sha256 chain).2 = { c with phase := phase } ∧
        (phase = .finished ∨ ∃ k r, phase = .releasing k r) := by
      simp only [Client.turn, hphase]
      split
      · exact ⟨_, rfl, Or.inl rfl⟩
      · split
        · exact ⟨_, rfl, Or.inl rfl⟩
        · exact ⟨_, rfl, Or.inr ⟨_, _, rfl⟩⟩
    obtain ⟨phase, heq, hp⟩ := hstill
    rw [heq]
    refine ⟨⟨hseq, ?_⟩, fun hnone => by rw [ho] at hnone; cases hnone⟩
    rcases hp with rfl | ⟨k', r', rfl⟩
    · exact ⟨o, ho, hsame⟩
    · exact ⟨o, ho, hsame⟩
  | finished =>
    have hturn : c.turn ar sha256 chain = (chain, c) := by simp only [Client.turn, hphase]
    obtain ⟨hseq, hend⟩ := h
    rw [hphase] at hend
    obtain ⟨o, ho, hsame⟩ := hend
    rw [hturn]
    refine ⟨⟨hseq, ?_⟩, fun hnone => by rw [ho] at hnone; cases hnone⟩
    rw [hphase]
    exact ⟨o, ho, hsame⟩
  | aborted =>
    have hturn : c.turn ar sha256 chain = (chain, c) := by simp only [Client.turn, hphase]
    obtain ⟨hseq, hend⟩ := h
    rw [hphase] at hend
    obtain ⟨o, ho, hsame⟩ := hend
    rw [hturn]
    refine ⟨⟨hseq, ?_⟩, fun hnone => by rw [ho] at hnone; cases hnone⟩
    rw [hphase]
    exact ⟨o, ho, hsame⟩

/-! ## Every interleaving -/

/-- the request a run has under way, if any, finds its session at the stage it is at, or room for it -/
def Client.Roomy (chain : List StageState) (c : Client) : Prop :=
  match c.phase with
  | .waiting k _ => ∀ s ∈ chain[k]?, s.HasRoom c.run.session
  | _ => True

instance (chain : List StageState) (c : Client) : Decidable (c.Roomy chain) := by
  unfold Client.Roomy
  split <;> infer_instance

/-- an event in which nothing fails: a step of a run, or a request of another sequence that is none of the runs' -/
def Unfailing (w : World) (a : Act) : Prop :=
  match a with
  | .step i => ∀ c ∈ w.clients[i]?, c.Roomy w.chain
  | .other _ r => r.target ≠ none ∧ ∀ c ∈ w.clients, r.target ≠ some c.run.session
  | _ => False

instance (w : World) (a : Act) : Decidable (Unfailing w a) :=
  match a with
  | .step i => inferInstanceAs (Decidable (∀ c ∈ w.clients[i]?, c.Roomy w.chain))
  | .other _ r => inferInstanceAs (Decidable (r.target ≠ none ∧ ∀ c ∈ w.clients, r.target ≠ some c.run.session))
  | .giveUp _ | .stray _ | .drop _ | .collect _ => inferInstanceAs (Decidable False)

variable (ar sha256 file s₀ rest) in
structure InStep (w : World) (past : List Act) : Prop where
  wired : Wired w.chain
  stages : w.chain.map StageState.stage = s₀ :: rest
  distinct : (w.clients.map fun c => c.run.session).Nodup
  tidy : ∀ c ∈ w.clients, c.Tidy ∧ Travels c.run.session
  agrees : ∀ c ∈ w.clients, Agrees ar sha256 file s₀ rest (viewOf c.run.session w.chain) c
  counted : ∀ i c, w.clients[i]? = some c → c.outcome = none →
    c.progress w.chain.length = past.countP (· = .step i)

theorem stages_set {chain : List StageState} {k : ℕ} {s s' : StageState} (hs : chain[k]? = some s)
    (h : s'.stage = s.stage) : (chain.set k s').map StageState.stage = chain.map StageState.stage :=
  map_set_same StageState.stage hs h

variable (ar sha256) in
theorem stages_turn (chain : List StageState) (c : Client) :
    (c.turn ar sha256 chain).1.map StageState.stage = chain.map StageState.stage := by
  rcases Client.turn_chain ar sha256 chain c with heq | ⟨k, r, s, -, hs, heq⟩
  · rw [heq]
  · rw [heq]
    exact stages_set hs (StageState.serve_touches ar r).stage

theorem inStep_step (ht : Tiles file s₀ rest) {w : World} {past : List Act} {i : ℕ}
    (h : InStep ar sha256 file s₀ rest w past) (hu : Unfailing w (.step i)) :
    InStep ar sha256 file s₀ rest (w.step ar sha256 (.step i)) (past ++ [.step i]) := by
  cases hc : w.clients[i]? with
  | none =>
    simp only [World.step, hc]
    refine ⟨h.wired, h.stages, h.distinct, h.tidy, h.agrees, ?_⟩
    intro j d hd hnone
    have hji : ¬ i = j := by
      intro heq
      rw [heq, hd] at hc
      cases hc
    rw [h.counted j d hd hnone, List.countP_append]
    simp [hji]
  | some c =>
    simp only [World.step, hc]
    have hmem := List.mem_of_getElem? hc
    have hilt : i < w.clients.length := (List.getElem?_eq_some_iff.1 hc).1
    obtain ⟨htidy, hid⟩ := h.tidy c hmem
    have hroom : ∀ k r, c.phase = .waiting k r → ∀ s, w.chain[k]? = some s → s.HasRoom c.run.session := by
      intro k r hphase s hs
      have := hu c hc
      rw [Client.Roomy, hphase] at this
      exact this s hs
    have hlen : (c.turn ar sha256 w.chain).1.length = w.chain.length := by
      have := congrArg List.length (stages_turn ar sha256 w.chain c)
      simpa using this
    obtain ⟨hown, hprogress⟩ := turn_agrees ht h.wired h.stages hid hroom (h.agrees c hmem)
    refine ⟨wired_turn ar sha256 h.wired c, (stages_turn ar sha256 w.chain c).trans h.stages, ?_, ?_, ?_, ?_⟩
    · rw [map_set_same (fun c => c.run.session) hc (by rw [Client.turn_run])]
      exact h.distinct
    · intro d hd
      rcases List.mem_or_eq_of_mem_set hd with hd | rfl
      · exact h.tidy d hd
      · rw [Client.turn_run]
        exact ⟨Client.turn_tidy ar sha256 w.chain htidy hid, hid⟩
    · intro d hd
      obtain ⟨j, hj⟩ := List.mem_iff_getElem?.1 hd
      by_cases hji : j = i
      · subst hji
        rw [List.getElem?_set_self hilt] at hj
        obtain rfl := Option.some.inj hj
        rw [Client.turn_run]
        exact hown
      · rw [List.getElem?_set_ne (Ne.symm hji)] at hj
        rw [Client.turn_view_other ar sha256 w.chain htidy (session_ne h.distinct hj hc hji)]
        exact h.agrees d (List.mem_of_getElem? hj)
    · intro j d hj hnone
      rw [hlen]
      by_cases hji : j = i
      · subst hji
        rw [List.getElem?_set_self hilt] at hj
        obtain rfl := Option.some.inj hj
        obtain ⟨hnone', hnext⟩ := hprogress hnone
        rw [hnext, h.counted j c hc hnone', List.countP_append]
        simp
      · rw [List.getElem?_set_ne (Ne.symm hji)] at hj
        rw [h.counted j d hj hnone, List.countP_append]
        simp [Ne.symm hji]

theorem inStep_other {w : World} {past : List Act} {k : ℕ} {r : Request} (h : InStep ar sha256 file s₀ rest w past)
    (hu : Unfailing w (.other k r)) :
    InStep ar sha256 file s₀ rest (w.step ar sha256 (.other k r)) (past ++ [.other k r]) := by
  have hcount : ∀ i, (past ++ [Act.other k r]).countP (· = .step i) = past.countP (· = .step i) := by
    intro i
    simp [List.countP_append]
  cases hs : w.chain[k]? with
  | none =>
    simp only [World.step, hs]
    refine ⟨h.wired, h.stages, h.distinct, h.tidy, h.agrees, ?_⟩
    intro i c hc hnone
    rw [hcount]
    exact h.counted i c hc hnone
  | some s =>
    simp only [World.step, hs]
    obtain ⟨target, htarget⟩ := Option.ne_none_iff_exists'.1 hu.1
    have htouch := StageState.serve_touches ar (s := s) r
    refine ⟨wired_set h.wired hs htouch.next, (stages_set hs htouch.stage).trans h.stages, h.distinct, h.tidy, ?_, ?_⟩
    · intro c hc
      have hne : c.run.session ≠ target := by
        intro heq
        exact hu.2 c hc (by rw [htarget, heq])
      rw [viewOf_serve_other ar hs htarget hne]
      exact h.agrees c hc
    · intro i c hc hnone
      rw [hcount, List.length_set]
      exact h.counted i c hc hnone

theorem inStep_act (ht : Tiles file s₀ rest) {w : World} {past : List Act} {a : Act}
    (h : InStep ar sha256 file s₀ rest w past) (hu : Unfailing w a) :
    InStep ar sha256 file s₀ rest (w.step ar sha256 a) (past ++ [a]) := by
  cases a with
  | step i => exact inStep_step ht h hu
  | other k r => exact inStep_other h hu
  | giveUp i => exact absurd hu not_false
  | stray j => exact absurd hu not_false
  | drop j => exact absurd hu not_false
  | collect i => exact absurd hu not_false

theorem cutOf_fresh {chain : List StageState} (hstages : chain.map StageState.stage = s₀ :: rest) {id : String}
    (h : Unheld chain id) : CutOf (s₀ :: rest) (Stage.joinAll s₀ rest).session (cachesOf (viewOf id chain)) := by
  have hcaches : cachesOf (viewOf id chain) = (s₀ :: rest).map Stage.session := by
    rw [← hstages, cachesOf, viewOf, List.map_map, List.map_map]
    refine List.map_congr_left fun s hs => ?_
    simp [View.session, StageState.view, h s hs]
  rw [hcaches]
  constructor
  · rw [List.forall₂_map_right_iff, List.forall₂_same]
    exact fun t _ => t.fits_session
  · rw [Stage.session_joinAll, List.map_map]
    rfl

theorem inStep_launch {chain : List StageState} (hw : Wired chain) (hstages : chain.map StageState.stage = s₀ :: rest)
    {runs : List Run} (hf : Fresh chain runs) :
    InStep ar sha256 file s₀ rest (World.launch chain runs) [] := by
  have hclean := clean_launch hw hf
  refine ⟨hw, hstages, hclean.distinct, fun c hc => ⟨(hclean.released c hc).tidy, (hclean.released c hc).travels⟩, ?_, ?_⟩
  · intro c hc
    obtain ⟨run, hrun, rfl⟩ := List.mem_map.1 hc
    unfold Client.launch
    split_ifs with hp
    · refine ⟨?_, .error "the prompt has no tokens", rfl, ?_⟩
      · simp only [Client.reference, Sequence.start, localAfter, Function.iterate_zero, id, Local.start, hp]
      · simp only [generateLocally, bailIf, hp, if_true]
        trivial
    · exact ⟨rfl, ⟨rfl, hp, rfl⟩, cutOf_fresh hstages (hf.unheld run hrun)⟩
  · intro i c hc _
    have hmem := List.mem_of_getElem? hc
    obtain ⟨run, hrun, rfl⟩ := List.mem_map.1 hmem
    unfold Client.launch
    split_ifs <;> simp [Client.progress, Sequence.start]

/-! ## A chain loaded from one file -/

/-- the servers of the stages `[start, e₁)`, `[e₁, e₂)`, … of a file, each with the address of its next -/
def loadChain (file : WeightFile) : ℕ → List (ℕ × Option String) → Check (List StageState)
  | _, [] => pure []
  | start, (stop, next) :: parts => do
    let s ← StageState.load file start stop next
    let chain ← loadChain file stop parts
    pure (s :: chain)

theorem stageState_load {start stop : ℕ} {next : Option String} {s : StageState}
    (h : StageState.load file start stop next = .ok s) :
    Stage.load file start stop = .ok s.stage ∧ s.next = next ∧ s.sessions = ∅ ∧ (s.stage.isLast = true ↔ next = none) := by
  simp only [StageState.load, bind_ok, bailIf_ok, pure_ok, ne_eq, not_not, exists_const] at h
  obtain ⟨stage, hstage, hlast, rfl⟩ := h
  refine ⟨hstage, rfl, rfl, ?_⟩
  simp only [hlast, Option.isNone_iff_eq_none]

theorem loadChain_loadAll (parts : List (ℕ × Option String)) (start : ℕ) (chain : List StageState)
    (h : loadChain file start parts = .ok chain) :
    Stage.loadAll file start (parts.map Prod.fst) = .ok (chain.map StageState.stage) ∧ ∀ s ∈ chain, s.sessions = ∅ := by
  induction parts generalizing start chain with
  | nil =>
    cases h
    exact ⟨rfl, by simp⟩
  | cons part parts ih =>
    simp only [loadChain, bind_ok, pure_ok] at h
    obtain ⟨s, hs, chain', hchain, rfl⟩ := h
    obtain ⟨hstage, -, hempty, -⟩ := stageState_load hs
    obtain ⟨hall, hrest⟩ := ih part.1 chain' hchain
    constructor
    · simp [Stage.loadAll, hstage, hall]
    · intro t ht
      rcases List.mem_cons.1 ht with rfl | ht
      · exact hempty
      · exact hrest t ht

theorem load_range {config : ModelConfig} (hc : file.config = .ok config) {start stop : ℕ} {t : Stage}
    (h : Stage.load file start stop = .ok t) :
    start < stop ∧ stop ≤ config.blockCount.toNat ∧ t.start = start ∧ t.stop = stop := by
  obtain ⟨config', hconfig, hrange, embedding, -, layers, -, norm, -, head, -, rfl⟩ := (Stage.load_ok_iff file start stop t).1 h
  obtain rfl : config' = config := Except.ok.inj (hconfig.symm.trans hc)
  exact ⟨hrange.1, hrange.2, rfl, rfl⟩

theorem loadAll_ascends {config : ModelConfig} (hc : file.config = .ok config) (ends : List ℕ) (start : ℕ)
    (stages : List Stage) (h : Stage.loadAll file start ends = .ok stages) : (start :: ends).IsChain (· < ·) := by
  induction ends generalizing start stages with
  | nil => exact List.isChain_singleton _
  | cons stop ends ih =>
    simp only [Stage.loadAll, bind_ok, pure_ok] at h
    obtain ⟨s, hs, rest, hrest, rfl⟩ := h
    exact List.isChain_cons_cons.2 ⟨(load_range hc hs).1, ih stop rest hrest⟩

/-- only the stage that ends the model has no next hop -/
theorem loadChain_wired {config : ModelConfig} (hc : file.config = .ok config) (parts : List (ℕ × Option String))
    (start : ℕ) (chain : List StageState) (h : loadChain file start parts = .ok chain)
    (hlast : (parts.map Prod.fst).getLast? = some config.blockCount.toNat) : Wired chain := by
  induction parts generalizing start chain with
  | nil => cases hlast
  | cons part parts ih =>
    simp only [loadChain, bind_ok, pure_ok] at h
    obtain ⟨s, hs, chain', hchain, rfl⟩ := h
    obtain ⟨hstage, hnext, -, hend⟩ := stageState_load hs
    obtain ⟨-, -, -, hstop⟩ := load_range hc hstage
    have hcount := (Stage.load_alike hc hstage).blockCount
    cases parts with
    | nil =>
      cases hchain
      intro k t hk
      cases k with
      | zero =>
        obtain rfl := Option.some.inj hk
        have hwhole : part.1 = config.blockCount.toNat := by simpa using hlast
        rw [hnext, ← hend]
        simp [Stage.isLast, hstop, hcount, hwhole]
      | succ k => simp at hk
    | cons part' parts =>
      have hwired := ih part.1 chain' hchain (by simpa using hlast)
      simp only [loadChain, bind_ok, pure_ok] at hchain
      obtain ⟨s', hs', chain'', -, rfl⟩ := hchain
      obtain ⟨hlt, hle, -, -⟩ := load_range hc (stageState_load hs').1
      intro k t hk
      cases k with
      | zero =>
        obtain rfl := Option.some.inj hk
        rw [hnext, ← hend]
        have hnot : part.1 ≠ config.blockCount.toNat := by omega
        simp [Stage.isLast, hstop, hcount, hnot]
      | succ k =>
        have := hwired k t (by simpa using hk)
        rw [this]
        simp

theorem loadChain_tiles {config : ModelConfig} (hc : file.config = .ok config) {parts : List (ℕ × Option String)}
    {chain : List StageState} (h : loadChain file 0 parts = .ok chain)
    (hlast : (parts.map Prod.fst).getLast? = some config.blockCount.toNat) :
    ∃ s₀ rest, chain.map StageState.stage = s₀ :: rest ∧ Tiles file s₀ rest := by
  obtain ⟨hall, -⟩ := loadChain_loadAll parts 0 chain h
  have hascend := loadAll_ascends hc _ _ _ hall
  have halike := Stage.loadAll_alike hc _ _ _ hall
  obtain ⟨ends, hends⟩ := List.getLast?_eq_some_iff.1 hlast
  rw [hends] at hall hascend
  cases hstages : chain.map StageState.stage with
  | nil =>
    have hlen := Stage.loadAll_length _ _ _ hall
    rw [hstages] at hlen
    simp at hlen
  | cons s₀ rest =>
    rw [hstages] at hall halike
    refine ⟨s₀, rest, rfl, ?_, config, hc, halike, ?_⟩
    · cases ends with
      | nil =>
        simp only [List.nil_append, Stage.loadAll, bind_ok, pure_ok] at hall
        obtain ⟨t, ht, _, -, heq⟩ := hall
        cases heq
        exact (load_range hc ht).2.2.1
      | cons e ends =>
        simp only [List.cons_append, Stage.loadAll, bind_ok, pure_ok] at hall
        obtain ⟨t, ht, _, -, heq⟩ := hall
        cases heq
        exact (load_range hc ht).2.2.1
    · exact (Stage.loadAll_iff file 0 ends _ hascend _).2 ⟨s₀, rest, hall, rfl⟩

end Chain

/-- **A split model is the whole model.** A file cut anywhere into stages, any number of runs with ids of their own, and
any interleaving of them and of other sequences in which nothing fails: the whole file loads; what a stage hands on
arrives with the same bits; every run has recorded the logits, tokens and steps that the whole model has after as many
turns; when it comes to an outcome it is that of `generate_locally`; and it comes to one once it has had its turns. -/
theorem split_is_whole (ar : Arith) (sha256 : List UInt8 → String) (file : WeightFile) (config : ModelConfig)
    (hc : file.config = .ok config) (parts : List (ℕ × Option String)) (chain : List StageState)
    (hcut : (parts.map Prod.fst).getLast? = some config.blockCount.toNat) (hload : loadChain file 0 parts = .ok chain)
    (runs : List Run) (hdistinct : (runs.map Run.session).Nodup)
    (hissued : ∀ run ∈ runs, ∃ processId n, run.session = freshSession processId n) (schedule : List Act)
    (hu : Along (World.step ar sha256) Unfailing (World.launch chain runs) schedule) :
    let w := (World.launch chain runs).runAll ar sha256 schedule
    ∃ whole, Stage.load file 0 config.blockCount.toNat = .ok whole ∧
      (∀ s ∈ chain, ∀ session session' input output, s.stage.forward ar session input = (session', .ok output) →
        input.tokens < 2 ^ 32 → Activation.fromBytes output.toBytes = .ok output) ∧
      w.clients.map Client.run = runs ∧
      ∀ i c, w.clients[i]? = some c →
        c.sequence = (localAfter ar sha256 whole c.run c.sequence.steps).sequence ∧
        (∀ o, c.outcome = some o → Same o (generateLocally ar sha256 file c.run)) ∧
        ((c.run.prompt.length + c.run.maxNewTokens) * (chain.length + 1) ≤ schedule.countP (· = .step i) →
          c.outcome ≠ none) := by
  intro w
  obtain ⟨s₀, rest, hstages, htiles⟩ := loadChain_tiles hc hload hcut
  have hwired := loadChain_wired hc parts 0 chain hload hcut
  have hfresh : Fresh chain runs := by
    refine ⟨hdistinct, hissued, ?_⟩
    intro run _ s hs
    rw [(loadChain_loadAll parts 0 chain hload).2 s hs]
    simp
  have hstep : InStep ar sha256 file s₀ rest w schedule := by
    have := Along.invariant (fun w past => InStep ar sha256 file s₀ rest w past)
      (fun w past a h hu => inStep_act htiles h hu) schedule (World.launch chain runs) [] hu
      (inStep_launch hwired hstages hfresh)
    rw [List.nil_append] at this
    exact this
  obtain ⟨config', hc', -, hwhole⟩ := htiles.whole
  obtain rfl : config' = config := Except.ok.inj (hc'.symm.trans hc)
  refine ⟨Stage.joinAll s₀ rest, hwhole, ?_, ?_, ?_⟩
  · intro s _ session session' input output hforward hlt
    obtain ⟨-, htokens, hlen⟩ := forward_shape hforward
    have hsized : 0 < input.tokens ∧ input.hidden.length = input.tokens * s.stage.config.embeddingLength.toNat := by
      by_contra hnot
      rw [Stage.forward, if_neg hnot] at hforward
      cases hforward
    refine Activation.fromBytes_toBytes output (by omega) (by omega) ?_
    rw [htokens, hlen, hsized.2]
    exact Nat.dvd_mul_right _ _
  · exact (World.runAll_runs ar sha256 _ schedule).trans (World.launch_runs chain runs)
  · intro i c hi
    obtain ⟨hseq, hphase⟩ := hstep.agrees c (List.mem_of_getElem? hi)
    have hlen : w.chain.length = chain.length := by
      have h1 := congrArg List.length hstep.stages
      have h2 := congrArg List.length hstages
      simp only [List.length_map] at h1 h2
      omega
    -- a run without an outcome is between two requests or has one under way
    have hgoing : c.outcome = none → Going ar sha256 s₀ rest c ∧ c.progress chain.length <
        (c.sequence.steps + 1) * (chain.length + 1) := by
      intro hnone
      have hchain : chain.length = (s₀ :: rest).length := by rw [← hstages, List.length_map]
      cases hp : c.phase with
      | sending =>
        rw [hp] at hphase
        refine ⟨hphase.1, ?_⟩
        simp only [Client.progress, hp, Nat.add_mul]
        omega
      | waiting k r =>
        rw [hp] at hphase
        refine ⟨hphase.1, ?_⟩
        have hk := hphase.2.1
        simp only [Client.progress, hp, Nat.add_mul]
        omega
      | releasing k r => rw [hp] at hphase; obtain ⟨o, ho, -⟩ := hphase; rw [ho] at hnone; cases hnone
      | finished => rw [hp] at hphase; obtain ⟨o, ho, -⟩ := hphase; rw [ho] at hnone; cases hnone
      | aborted => rw [hp] at hphase; obtain ⟨o, ho, -⟩ := hphase; rw [ho] at hnone; cases hnone
    refine ⟨hseq, ?_, ?_⟩
    · intro o ho
      cases hp : c.phase with
      | sending => rw [hp] at hphase; rw [hphase.1.outcome] at ho; cases ho
      | waiting k r => rw [hp] at hphase; rw [hphase.1.outcome] at ho; cases ho
      | releasing k r =>
        rw [hp] at hphase
        obtain ⟨o', ho', hsame⟩ := hphase
        obtain rfl := Option.some.inj (ho'.symm.trans ho)
        exact hsame
      | finished =>
        rw [hp] at hphase
        obtain ⟨o', ho', hsame⟩ := hphase
        obtain rfl := Option.some.inj (ho'.symm.trans ho)
        exact hsame
      | aborted =>
        rw [hp] at hphase
        obtain ⟨o', ho', hsame⟩ := hphase
        obtain rfl := Option.some.inj (ho'.symm.trans ho)
        exact hsame
    · intro henough hnone
      obtain ⟨hg, hlt⟩ := hgoing hnone
      have hcount := hstep.counted i c hi hnone
      rw [hlen] at hcount
      obtain ⟨-, h1, -, h2⟩ := localAfter_running ar sha256 _ c.run hg.prompt c.sequence.steps hg.reference
      have hsteps : c.sequence.steps + 1 ≤ c.run.prompt.length + c.run.maxNewTokens := by omega
      have := Nat.mul_le_mul_right (chain.length + 1) hsteps
      omega

namespace Sample

def pair : List Run := [⟨freshSession 7 0, [0], 1⟩, ⟨freshSession 7 1, [1, 0], 0⟩]

/-- the two runs in turn, six events each -/
def interleaved : List Act := (List.replicate 6 [.step 0, .step 1]).flatten

theorem loadChain_file : loadChain file 0 [(1, some "b"), (2, none)] = .ok chain := by
  have hhead : Stage.load file 0 1 = .ok head := by decide +kernel
  have htail : Stage.load file 1 2 = .ok tail := by decide +kernel
  simp only [loadChain, StageState.load, hhead, htail]
  rfl

end Sample

/-- two runs in turn over two stages end as the whole model does -/
theorem pair_is_whole :
    let w := (World.launch Sample.chain Sample.pair).runAll Sample.arith Protocol.hexLower Sample.interleaved
    ∀ i c, w.clients[i]? = some c → i < 2 →
      ∃ o, c.outcome = some o ∧ Same o (generateLocally Sample.arith Protocol.hexLower Sample.file c.run) := by
  intro w i c hi hlt
  have hissued : ∀ run ∈ Sample.pair, ∃ processId n, run.session = freshSession processId n := by
    intro run hr
    rcases List.mem_cons.1 hr with rfl | hr
    · exact ⟨7, 0, rfl⟩
    · obtain rfl := List.mem_singleton.1 hr
      exact ⟨7, 1, rfl⟩
  have hu : Along (World.step Sample.arith Protocol.hexLower) Unfailing (World.launch Sample.chain Sample.pair)
      Sample.interleaved := by decide +kernel
  obtain ⟨_, _, _, _, hall⟩ := split_is_whole Sample.arith Protocol.hexLower Sample.file Sample.config rfl
    [(1, some "b"), (2, none)] Sample.chain (by decide) Sample.loadChain_file Sample.pair (by decide) hissued
    Sample.interleaved hu
  obtain ⟨-, hsame, hends⟩ := hall i c hi
  have hturns : ∀ j, j < 2 → ∀ d ∈ w.clients[j]?, (d.run.prompt.length + d.run.maxNewTokens) * (Sample.chain.length + 1) ≤
      Sample.interleaved.countP (· = .step j) := by decide +kernel
  obtain ⟨o, ho⟩ := Option.ne_none_iff_exists'.1 (hends (hturns i hlt c hi))
  exact ⟨o, ho, hsame o ho⟩

end Hocmesh.Node
