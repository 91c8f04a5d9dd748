/-
Sequences running over one chain of stages: `run_session`, `generate_over_chain`, `generate_many_over_chain`, and the
reference they are measured against, `generate_locally`.

A run asks the head for one token at a time and keeps the logits it gets back; when it has all its tokens, or a step has
failed, it sends a reset down the chain to release its session. The loop between two answers is the same in both
(`Sequence.absorb`), so a run over the chain is told from a local one only by where its logits come from.

`Act` is one event: a run takes its next step (its request moves on by one stage), it gives up on a request that is still
being served, an abandoned request moves on or is dropped, the call takes a finished run, or somebody else's request is
served. `step` is total, `runAll` is a schedule of events.
-/
import Hocmesh.Node.Pipeline

namespace Hocmesh.Node

open Hocmesh.Base Hocmesh.Engine

/-! ## The generation loop -/

/-- everything a run has been answered so far -/
structure Trace where
  /-- the exact bytes of every logit of every step -/
  bytes : List UInt8
  argmax : List UInt32
deriving DecidableEq

structure Generated where
  tokens : List UInt32
  steps : ℕ
  logitsSha256 : String
  argmaxPerStep : List UInt32
deriving DecidableEq

/-- the loop variables of a run -/
structure Sequence where
  tokens : List UInt32
  steps : ℕ
  position : UInt32
  cursor : ℕ
  trace : Trace
deriving DecidableEq

/-- a prompt, how many tokens to add to it, and the id it runs under -/
structure Run where
  session : String
  prompt : List UInt32
  maxNewTokens : ℕ
deriving DecidableEq

section

variable (ar : Arith) (sha256 : List UInt8 → String)

/-- the most likely token; ties go to the lower index -/
def argmax (logits : List F32) : Check UInt32 := do
  bailIf (logits = []) "the model produced no logits"
  let best := logits.zipIdx.foldl (fun (best : ℕ × F32) (v : F32 × ℕ) => if ar.gt v.1 best.2 then (v.2, v.1) else best)
    (0, ar.negInfinity)
  bailIf (2 ^ 32 ≤ best.1) "token index does not fit in u32"
  pure (UInt32.ofNat best.1)

def Trace.record (trace : Trace) (logits : List F32) : Check (UInt32 × Trace) := do
  let best ← Node.argmax ar logits
  pure (best, ⟨trace.bytes ++ encodeF32 logits, trace.argmax ++ [best]⟩)

def Sequence.start (prompt : List UInt32) : Sequence := ⟨prompt, 0, 0, 0, ⟨[], []⟩⟩

def Sequence.finish (q : Sequence) : Generated := ⟨q.tokens, q.steps, sha256 q.trace.bytes, q.trace.argmax⟩

/-- one turn of the loop, once the logits are there: the sequence goes on, or it is finished -/
def Sequence.absorb (run : Run) (q : Sequence) (logits : List F32) : Check (Sequence × Option Generated) := do
  let (next, trace) ← q.trace.record ar logits
  let q : Sequence := { q with steps := q.steps + 1, position := q.position + 1, cursor := q.cursor + 1, trace }
  if q.tokens.length ≤ q.cursor then
    if run.maxNewTokens ≤ q.tokens.length - run.prompt.length then pure (q, some (q.finish sha256))
    else pure ({ q with tokens := q.tokens ++ [next] }, none)
  else pure (q, none)

/-! ## The whole model in one process -/

/-- `generate_locally` between two turns of its loop, or after it has returned -/
structure Local where
  session : Session
  sequence : Sequence
  outcome : Option (Check Generated)

def Local.turn (stage : Stage) (run : Run) (l : Local) : Local :=
  match l.outcome with
  | some _ => l
  | none =>
    match index l.sequence.tokens l.sequence.cursor >>= fun token => stage.embed [token] l.sequence.position with
    | .error e => { l with outcome := some (.error e) }
    | .ok activation =>
      let r := stage.forward ar l.session activation
      match (r.2 >>= stage.logits ar) >>= l.sequence.absorb ar sha256 run with
      | .error e => ⟨r.1, l.sequence, some (.error e)⟩
      | .ok (q, generated) => ⟨r.1, q, generated.map .ok⟩

def Local.start (stage : Stage) (run : Run) : Local := ⟨stage.session, Sequence.start run.prompt, none⟩

/-- the loop after `n` turns -/
def localAfter (stage : Stage) (run : Run) (n : ℕ) : Local :=
  (Local.turn ar sha256 stage run)^[n] (Local.start stage run)

/-- one turn for every token of the prompt and every new one; `localAfter_returns` says that this is enough -/
def generateLocally (file : WeightFile) (run : Run) : Check Generated := do
  bailIf (run.prompt = []) "the prompt has no tokens"
  let config ← file.config
  let stage ← Stage.load file 0 config.blockCount.toNat
  match (localAfter ar sha256 stage run (run.prompt.length + run.maxNewTokens)).outcome with
  | some result => result
  | none => .error "still running"

/-! ## Runs over the chain -/

inductive Phase where
  /-- about to send the next token -/
  | sending
  /-- its request is being served at a stage -/
  | waiting (stage : ℕ) (request : Request)
  /-- its reset is being served at a stage -/
  | releasing (stage : ℕ) (request : Request)
  | finished
  /-- its task was dropped -/
  | aborted
deriving DecidableEq

/-- `generate_over_chain` for one prompt -/
structure Client where
  run : Run
  sequence : Sequence
  outcome : Option (Check Generated)
  phase : Phase
  /-- `generate_many_over_chain` has taken its result -/
  joined : Bool
deriving DecidableEq

namespace Client

def launch (run : Run) : Client :=
  if run.prompt = [] then ⟨run, Sequence.start [], some (.error "the prompt has no tokens"), .finished, false⟩
  else ⟨run, Sequence.start run.prompt, none, .sending, false⟩

/-- the session is released even when the run failed -/
def settle (c : Client) (outcome : Check Generated) : Client :=
  { c with outcome := some outcome, phase := .releasing 0 (.reset (some c.run.session)) }

/-- the head has answered -/
def receive (c : Client) (answer : Check (List UInt8)) : Client :=
  match (mapErr (answered "head") answer >>= decodeF32) >>= c.sequence.absorb ar sha256 c.run with
  | .error e => c.settle (.error e)
  | .ok (q, none) => { c with sequence := q, phase := .sending }
  | .ok (q, some generated) => { c with sequence := q }.settle (.ok generated)

/-- the next event of a run: it sends a token, or its request is served by the stage it has reached -/
def turn (chain : List StageState) (c : Client) : List StageState × Client :=
  match c.phase with
  | .sending =>
    match index c.sequence.tokens c.sequence.cursor with
    | .error e => (chain, c.settle (.error e))
    | .ok token => (chain, { c with phase := .waiting 0 (.token token c.sequence.position (some c.run.session)) })
  | .waiting k r =>
    match chain[k]? with
    | none => (chain, c.receive ar sha256 (.error "connection refused"))
    | some s =>
      match s.serve ar r with
      | (s', .answer out) => (chain.set k s', c.receive ar sha256 out)
      | (s', .pass _ r') => (chain.set k s', { c with phase := .waiting (k + 1) r' })
  | .releasing k r =>
    match chain[k]? with
    | none => (chain, { c with phase := .finished })
    | some s =>
      match s.serve ar r with
      | (s', .answer _) => (chain.set k s', { c with phase := .finished })
      | (s', .pass _ r') => (chain.set k s', { c with phase := .releasing (k + 1) r' })
  | .finished => (chain, c)
  | .aborted => (chain, c)

/-- the request a run has under way, and the stage it has reached -/
def underWay (c : Client) : Option (ℕ × Request) :=
  match c.phase with
  | .waiting k r => some (k, r)
  | .releasing k r => some (k, r)
  | _ => none

/-- the hop to the head timed out: the run fails, or its release does and is only logged -/
def giveUp (c : Client) : Client :=
  match c.phase with
  | .waiting _ _ => c.settle (.error "operation timed out")
  | .releasing _ _ => { c with phase := .finished }
  | _ => c

/-- the task is dropped with the `JoinSet` it is in -/
def abort (c : Client) : Client := if c.phase = .finished then c else { c with phase := .aborted }

end Client

/-! ## The system -/

structure World where
  chain : List StageState
  clients : List Client
  /-- requests nobody waits for any more, and the stage each has reached -/
  strays : List (ℕ × Request)
  /-- `generate_many_over_chain` has returned -/
  returned : Bool

inductive Act where
  /-- a run takes its next step -/
  | step (i : ℕ)
  /-- a run stops waiting for a request that is still being served -/
  | giveUp (i : ℕ)
  /-- an abandoned request is served by the stage it has reached -/
  | stray (j : ℕ)
  /-- an abandoned request is dropped -/
  | drop (j : ℕ)
  /-- `join_next` hands the call a finished run -/
  | collect (i : ℕ)
  /-- another caller's request is served at a stage -/
  | other (stage : ℕ) (request : Request)
deriving DecidableEq

namespace World

def launch (chain : List StageState) (runs : List Run) : World := ⟨chain, runs.map Client.launch, [], false⟩

def serveStray (w : World) (j : ℕ) : World :=
  match w.strays[j]? with
  | none => w
  | some (k, r) =>
    match w.chain[k]? with
    | none => { w with strays := w.strays.eraseIdx j }
    | some s =>
      match s.serve ar r with
      | (s', .answer _) => { w with chain := w.chain.set k s', strays := w.strays.eraseIdx j }
      | (s', .pass _ r') => { w with chain := w.chain.set k s', strays := w.strays.set j (k + 1, r') }

/-- the first failed prompt ends the call, and the tasks of the others are dropped with their requests under way -/
def collect (w : World) (i : ℕ) : World :=
  match w.clients[i]? with
  | none => w
  | some c =>
    if w.returned ∨ c.phase ≠ .finished ∨ c.joined then w
    else
      let clients := w.clients.set i { c with joined := true }
      match c.outcome with
      | some (.ok _) => { w with clients, returned := clients.all fun c => c.joined }
      | _ => { w with
          clients := clients.map Client.abort
          strays := w.strays ++ clients.filterMap Client.underWay
          returned := true }

def step (w : World) (a : Act) : World :=
  match a with
  | .step i =>
    match w.clients[i]? with
    | none => w
    | some c =>
      let r := c.turn ar sha256 w.chain
      { w with chain := r.1, clients := w.clients.set i r.2 }
  | .giveUp i =>
    match w.clients[i]? with
    | none => w
    | some c => { w with clients := w.clients.set i c.giveUp, strays := w.strays ++ c.underWay.toList }
  | .stray j => w.serveStray ar j
  | .drop j => { w with strays := w.strays.eraseIdx j }
  | .collect i => w.collect i
  | .other k r =>
    match w.chain[k]? with
    | none => w
    | some s => { w with chain := w.chain.set k (s.serve ar r).1 }

def runAll (w : World) (schedule : List Act) : World := schedule.foldl (step ar sha256) w

end World

end

/-! ## What a request touches -/

/-- an id that arrives at the next stage as it was sent -/
def Travels (id : String) : Prop := id.toList.all visible ∧ id ≠ ""

instance (id : String) : Decidable (Travels id) := inferInstanceAs (Decidable (_ ∧ _))

theorem sessionOf_travels {id : String} (h : Travels id) : sessionOf (some id) = id := if_pos h

theorem headerChar_of_visible {c : Char} (h : visible c) : headerChar c := by
  simp only [visible, headerChar, decide_eq_true_eq] at h ⊢
  rcases h with h | ⟨h1, h2⟩
  · exact Or.inl h
  · exact Or.inr ⟨h1, by omega⟩

theorem header_of_travels {id : String} (h : Travels id) : id.toList.all headerChar := by
  have hall := List.all_eq_true.1 h.1
  exact List.all_eq_true.2 fun c hc => headerChar_of_visible (hall c hc)

theorem visible_digits (n : ℕ) : (toString n).toList.all visible := by
  have hdigits : (toString n).toList = Nat.toDigits 10 n := by
    simp [toString, Nat.repr]
  rw [hdigits, List.all_eq_true]
  intro c hc
  have hd := Nat.isDigit_of_mem_toDigits (by decide) (by decide) hc
  simp only [Char.isDigit, Bool.and_eq_true, decide_eq_true_eq] at hd
  have h1 : 48 ≤ c.toNat := hd.1
  have h2 : c.toNat ≤ 57 := hd.2
  simp only [visible, decide_eq_true_eq]
  omega

/-- the id a run is given is made of letters, digits and dashes -/
theorem freshSession_travels (processId run : ℕ) : Travels (freshSession processId run) := by
  have htext : freshSession processId run = "run-" ++ toString processId ++ "-" ++ toString run := rfl
  rw [htext]
  constructor
  · simp only [String.toList_append, List.all_append, visible_digits, Bool.and_true]
    decide
  · simp

/-- the sequence a request is about; `none` is all of them -/
def Request.target : Request → Option String
  | .token _ _ session => some (session.getD defaultSession)
  | .forward header _ => some (sessionOf header)
  | .reset header => match header with
    | some id => if Travels id then some id else none
    | none => none

namespace StageState

variable (ar : Arith) {s : StageState}

/-- a request that is not a reset is refused as it stands, or advances what it brings -/
theorem serve_entering {r : Request} (hr : ∀ header, r ≠ .reset header) :
    s.serve ar r = match s.entering r with
      | .error e => (s, .answer (.error e))
      | .ok (id, activation) => s.advance ar id activation := by
  cases r with
  | token token position session => rfl
  | forward header body => rfl
  | reset header => exact absurd rfl (hr header)

theorem entering_target {r : Request} {id : String} {a : Activation} (h : s.entering r = .ok (id, a)) :
    r.target = some id := by
  cases r with
  | token token position session =>
    simp only [entering, bind_ok, pure_ok, Prod.mk.injEq] at h
    obtain ⟨_, -, a', -, rfl, rfl⟩ := h
    rfl
  | forward header body =>
    simp only [entering, bind_ok, pure_ok, Prod.mk.injEq] at h
    obtain ⟨a', -, rfl, rfl⟩ := h
    rfl
  | reset header => cases h

/-- what one request does to a stage: its weights and its next hop stay, and so does every session but the one it is
about -/
structure Touches (s s' : StageState) (target : Option String) : Prop where
  stage : s'.stage = s.stage
  next : s'.next = s.next
  frame : ∀ id, target = some id → ∀ other, other ≠ id → s'.sessions[other]? = s.sessions[other]?

theorem Touches.refl (s : StageState) (target : Option String) : Touches s s target :=
  ⟨rfl, rfl, fun _ _ _ _ => rfl⟩

theorem serve_touches (r : Request) : Touches s (s.serve ar r).1 r.target := by
  by_cases hr : ∀ header, r ≠ .reset header
  · rw [serve_entering ar hr]
    cases hent : s.entering r with
    | error e => exact Touches.refl s _
    | ok entered =>
      obtain ⟨id, activation⟩ := entered
      simp only
      rw [entering_target hent]
      cases hs : s.session id with
      | error e =>
        simp only [advance, hs]
        exact Touches.refl s _
      | ok cache =>
        rw [advance_fst ar hs]
        refine ⟨rfl, rfl, ?_⟩
        intro id' hid other hne
        obtain rfl : id = id' := Option.some.inj hid
        rw [Table.get_insert, if_neg (Ne.symm hne)]
  · simp only [not_forall, not_not] at hr
    obtain ⟨header, rfl⟩ := hr
    refine ⟨?_, ?_, ?_⟩
    · simp only [serve]
      cases s.next <;> rfl
    · simp only [serve]
      cases s.next <;> rfl
    · intro id hid other hne
      have hsessions : (s.serve ar (.reset header)).1.sessions = s.sessions.erase id := by
        cases header with
        | none => cases hid
        | some id' =>
          simp only [Request.target] at hid
          split_ifs at hid with ht
          obtain rfl : id' = id := Option.some.inj hid
          simp only [serve]
          cases s.next <;> exact if_pos ht
      rw [hsessions, Std.ExtTreeMap.getElem?_erase]
      simp [Ne.symm hne]

/-- the request a stage sends on is about the same sequence -/
theorem serve_pass_target {r r' : Request} {s' : StageState} {address id : String} (h : s.serve ar r = (s', .pass address r'))
    (htarget : r.target = some id) (hid : Travels id) : r'.target = some id := by
  by_cases hr : ∀ header, r ≠ .reset header
  · rw [serve_entering ar hr] at h
    cases hent : s.entering r with
    | error e => rw [hent] at h; cases h
    | ok entered =>
      obtain ⟨id', activation⟩ := entered
      obtain rfl : id' = id := Option.some.inj ((entering_target hent).symm.trans htarget)
      rw [hent] at h
      simp only [advance] at h
      split at h
      · cases h
      · split at h
        · cases h
        · split at h
          · cases h
          · split_ifs at h
            · cases h
              exact congrArg some (sessionOf_travels hid)
            · cases h
  · simp only [not_forall, not_not] at hr
    obtain ⟨header, rfl⟩ := hr
    simp only [serve] at h
    split at h
    · cases h
    · cases h
      exact htarget

end StageState

/-! ## One sequence's view of the chain -/

/-- rewriting one entry of a list with something that looks the same does not change how the list looks -/
theorem map_set_same {α β : Type} (f : α → β) {l : List α} {i : ℕ} {a b : α} (ha : l[i]? = some a) (hf : f b = f a) :
    (l.set i b).map f = l.map f := by
  rw [List.map_set, hf]
  refine List.ext_getElem? fun j => ?_
  rw [List.getElem?_set]
  split_ifs with hj hlen
  · subst hj
    simp [ha]
  · subst hj
    simp only [List.length_map, not_lt] at hlen
    rw [List.getElem?_eq_none (by simpa using hlen)]
  · rfl

/-- a stage as one sequence sees it -/
structure View where
  stage : Stage
  next : Option String
  held : Option Session

def StageState.view (id : String) (s : StageState) : View := ⟨s.stage, s.next, s.sessions[id]?⟩

/-- the chain as one sequence sees it -/
def viewOf (id : String) (chain : List StageState) : List View := chain.map (StageState.view id)

@[simp] theorem length_viewOf (id : String) (chain : List StageState) : (viewOf id chain).length = chain.length :=
  List.length_map _

theorem viewOf_get {id : String} {chain : List StageState} {k : ℕ} {s : StageState} (h : chain[k]? = some s) :
    (viewOf id chain)[k]? = some (s.view id) := by
  simp [viewOf, h]

/-- a request about another sequence is not seen -/
theorem viewOf_serve_other (ar : Arith) {id target : String} {chain : List StageState} {k : ℕ} {s : StageState} {r : Request}
    (hs : chain[k]? = some s) (hr : r.target = some target) (hne : id ≠ target) :
    viewOf id (chain.set k (s.serve ar r).1) = viewOf id chain := by
  have htouch := StageState.serve_touches ar (s := s) r
  have hview : (s.serve ar r).1.view id = s.view id := by
    simp only [StageState.view, htouch.stage, htouch.next, htouch.frame target hr id hne]
  exact map_set_same (StageState.view id) hs hview

namespace Client

variable (ar : Arith) (sha256 : List UInt8 → String)

/-- whatever a run has under way is about its own sequence -/
def Tidy (c : Client) : Prop := ∀ k r, c.underWay = some (k, r) → r.target = some c.run.session

@[simp] theorem settle_run (c : Client) (o : Check Generated) : (c.settle o).run = c.run := rfl

@[simp] theorem receive_run (c : Client) (answer : Check (List UInt8)) : (c.receive ar sha256 answer).run = c.run := by
  unfold receive
  split <;> rfl

@[simp] theorem turn_run (chain : List StageState) (c : Client) : (c.turn ar sha256 chain).2.run = c.run := by
  unfold turn
  split
  · split <;> rfl
  · split
    · simp
    · split <;> simp
  · split
    · rfl
    · split <;> rfl
  · rfl
  · rfl

/-- a run's turn leaves the chain alone, or has its request served where it is -/
theorem turn_chain (chain : List StageState) (c : Client) :
    (c.turn ar sha256 chain).1 = chain ∨ ∃ k r s, c.underWay = some (k, r) ∧ chain[k]? = some s ∧
      (c.turn ar sha256 chain).1 = chain.set k (s.serve ar r).1 := by
  unfold turn underWay
  split
  · split <;> exact Or.inl rfl
  · rename_i k r hphase
    split
    · exact Or.inl rfl
    · rename_i s hs
      refine Or.inr ⟨k, r, s, by rw [hphase], hs, ?_⟩
      split <;> rename_i hserve <;> rw [hserve]
  · rename_i k r hphase
    split
    · exact Or.inl rfl
    · rename_i s hs
      refine Or.inr ⟨k, r, s, by rw [hphase], hs, ?_⟩
      split <;> rename_i hserve <;> rw [hserve]
  · exact Or.inl rfl
  · exact Or.inl rfl

/-- a run's turn is not seen by the other sequences -/
theorem turn_view_other (chain : List StageState) {c : Client} (h : c.Tidy) {id : String} (hne : id ≠ c.run.session) :
    viewOf id (c.turn ar sha256 chain).1 = viewOf id chain := by
  rcases turn_chain ar sha256 chain c with heq | ⟨k, r, s, hunder, hs, heq⟩
  · rw [heq]
  · rw [heq]
    exact viewOf_serve_other ar hs (h k r hunder) hne

theorem settle_tidy {c : Client} (hid : Travels c.run.session) (o : Check Generated) : (c.settle o).Tidy := by
  intro k r h
  simp only [settle, underWay, Option.some.injEq, Prod.mk.injEq] at h
  obtain ⟨rfl, rfl⟩ := h
  exact if_pos hid

theorem receive_tidy {c : Client} (hid : Travels c.run.session) (answer : Check (List UInt8)) :
    (c.receive ar sha256 answer).Tidy := by
  unfold receive
  split
  · exact settle_tidy hid _
  · intro k r h
    simp [underWay] at h
  · rename_i q generated heq
    exact settle_tidy (c := { c with sequence := q }) hid (.ok generated)

theorem turn_tidy (chain : List StageState) {c : Client} (h : c.Tidy) (hid : Travels c.run.session) :
    (c.turn ar sha256 chain).2.Tidy := by
  unfold turn
  cases hphase : c.phase with
  | sending =>
    simp only
    split
    · exact settle_tidy hid _
    · intro k r hu
      simp only [underWay, Option.some.injEq, Prod.mk.injEq] at hu
      obtain ⟨rfl, rfl⟩ := hu
      rfl
  | waiting k r =>
    have htarget := h k r (by simp [underWay, hphase])
    simp only
    split
    · exact receive_tidy ar sha256 hid (.error "connection refused")
    · split
      · exact receive_tidy ar sha256 hid _
      · rename_i hserve
        intro k' r' hu
        simp only [underWay, Option.some.injEq, Prod.mk.injEq] at hu
        obtain ⟨rfl, rfl⟩ := hu
        exact StageState.serve_pass_target ar hserve htarget hid
  | releasing k r =>
    have htarget := h k r (by simp [underWay, hphase])
    simp only
    split
    · intro k' r' hu
      simp [underWay] at hu
    · split
      · intro k' r' hu
        simp [underWay] at hu
      · rename_i hserve
        intro k' r' hu
        simp only [underWay, Option.some.injEq, Prod.mk.injEq] at hu
        obtain ⟨rfl, rfl⟩ := hu
        exact StageState.serve_pass_target ar hserve htarget hid
  | finished => exact h
  | aborted => exact h

end Client

@[simp] theorem giveUp_run (c : Client) : c.giveUp.run = c.run := by
  unfold Client.giveUp
  split <;> rfl

@[simp] theorem abort_run (c : Client) : c.abort.run = c.run := by
  unfold Client.abort
  split_ifs <;> rfl

/-- no event adds a run, takes one away or changes what it is a run of -/
theorem World.step_runs (ar : Arith) (sha256 : List UInt8 → String) (w : World) (a : Act) :
    (w.step ar sha256 a).clients.map Client.run = w.clients.map Client.run := by
  cases a with
  | step i =>
    cases hc : w.clients[i]? with
    | none => simp only [step, hc]
    | some c =>
      simp only [step, hc]
      exact map_set_same Client.run hc (Client.turn_run ar sha256 w.chain c)
  | giveUp i =>
    cases hc : w.clients[i]? with
    | none => simp only [step, hc]
    | some c =>
      simp only [step, hc]
      exact map_set_same Client.run hc (giveUp_run c)
  | stray j =>
    simp only [step, serveStray]
    split
    · rfl
    · split
      · rfl
      · split <;> rfl
  | drop j => rfl
  | collect i =>
    simp only [step, collect]
    cases hc : w.clients[i]? with
    | none => rfl
    | some c =>
      have hset := map_set_same Client.run (b := { c with joined := true }) hc rfl
      simp only
      split_ifs
      · rfl
      · split
        · exact hset
        · simp only [List.map_map, Function.comp_def, abort_run]
          exact hset
  | other k r =>
    cases hs : w.chain[k]? with
    | none => simp only [step, hs]
    | some s => simp only [step, hs]

theorem World.runAll_runs (ar : Arith) (sha256 : List UInt8 → String) (w : World) (schedule : List Act) :
    (w.runAll ar sha256 schedule).clients.map Client.run = w.clients.map Client.run := by
  induction schedule generalizing w with
  | nil => rfl
  | cons a schedule ih => exact (ih _).trans (step_runs ar sha256 w a)

theorem Client.launch_run (run : Run) : (Client.launch run).run = run := by
  unfold launch
  split_ifs <;> rfl

theorem World.launch_runs (chain : List StageState) (runs : List Run) :
    (World.launch chain runs).clients.map Client.run = runs := by
  simp [World.launch, Function.comp_def, Client.launch_run]

end Hocmesh.Node
