/-
`hocmesh-node`: the stages of one model as servers, each handing its activation to the next.

A server keeps one session for every sequence it is told of and refuses a new one beyond `maxSessions`. `serve` is one
request at one server: what it writes, and either the answer or the request it sends on. `request` is the same request
with everything it sets off down the chain, where every hand-over may go wrong.

A server writes before the next one has answered, so a request that fails has already changed the servers above the
failure, and the first server creates the session before it looks at the activation. A failed request changes nothing
exactly when the server it arrives at turns it away before it writes (`failed_request_unchanged`).
-/
import Hocmesh.Base.Table
import Hocmesh.Engine.Shapes
import Hocmesh.Engine.Split

namespace Hocmesh.Node

open Hocmesh.Base Hocmesh.Engine

/-! ## Session ids -/

def defaultSession : String := "default"

def maxSessions : ℕ := 64

/-- a byte `HeaderValue` takes; the bytes of a character beyond ASCII are all taken -/
def headerChar (c : Char) : Bool := c = '\t' ∨ (32 ≤ c.toNat ∧ c.toNat ≠ 127)

/-- `HeaderValue::to_str` -/
def visible (c : Char) : Bool := c = '\t' ∨ (32 ≤ c.toNat ∧ c.toNat < 127)

/-- the sequence a request names, or the default one -/
def sessionOf (header : Option String) : String :=
  match header with
  | some value => if value.toList.all visible ∧ value ≠ "" then value else defaultSession
  | none => defaultSession

def freshSession (processId run : ℕ) : String := s!"run-{processId}-{run}"

/-! ## One server -/

structure StageState where
  stage : Stage
  /-- one cache for every live sequence -/
  sessions : Table String Session
  /-- the address of the next stage, absent on the tail -/
  next : Option String

inductive Request where
  /-- `/stage/token` -/
  | token (token position : UInt32) (session : Option String)
  /-- `/stage/forward` -/
  | forward (header : Option String) (body : List UInt8)
  /-- `/stage/reset` -/
  | reset (header : Option String)
deriving DecidableEq

/-- what a handler does next: answer, or send a request to the stage at an address and answer what it answers -/
inductive Reply where
  | answer (result : Check (List UInt8))
  | pass (address : String) (request : Request)

def encodeF32 (values : List F32) : List UInt8 := values.flatMap leBytes

def decodeF32 (bytes : List UInt8) : Check (List F32) := do
  bailIf (¬ 4 ∣ bytes.length) s!"a logits response of {bytes.length} bytes is not a whole number of floats"
  pure (words bytes)

namespace StageState

/-- `StageState::load` on a file that holds the whole model -/
def load (file : WeightFile) (start stop : ℕ) (next : Option String) : Check StageState := do
  let stage ← Stage.load file start stop
  let hop := if stage.isLast then "ends the model and must not be given" else "does not end the model and needs"
  bailIf (stage.isLast ≠ next.isNone)
    s!"a stage holding blocks {start}..{stop} of {stage.config.blockCount} {hop} a next hop"
  pure ⟨stage, ∅, next⟩

variable (ar : Arith) (s : StageState)

/-- the cache of a sequence, created the first time it is named -/
def session (id : String) : Check Session :=
  match s.sessions[id]? with
  | some existing => .ok existing
  | none =>
    if maxSessions ≤ s.sessions.size then
      .error s!"this stage is already holding caches for {maxSessions} sequences and will not start {id}"
    else .ok s.stage.session

def handingOver (address error : String) : String := s!"handing the activation to the stage at {address}: {error}"

/-- run the blocks, then hand the result on or turn it into logits -/
def advance (id : String) (input : Activation) : StageState × Reply :=
  match s.session id with
  | .error e => (s, .answer (.error e))
  | .ok cache =>
    let r := s.stage.forward ar cache input
    -- a session that was created stays, and one that was written stays written, whatever comes back
    let s' : StageState := { s with sessions := s.sessions.insert id r.1 }
    match r.2 with
    | .error e => (s', .answer (.error e))
    | .ok output =>
      match s.next with
      | none => (s', .answer ((s.stage.logits ar output).map encodeF32))
      | some address =>
        if id.toList.all headerChar then (s', .pass address (.forward (some id) output.toBytes))
        else (s', .answer (.error (handingOver address "failed to parse header value")))

/-- what a request asks a stage to advance: a token it embeds, or an activation it decodes -/
def entering (request : Request) : Check (String × Activation) :=
  match request with
  | .token token position session => do
    bailIf (¬ s.stage.isFirst) (s!"this stage holds blocks {s.stage.start}..{s.stage.stop} and has no embedding table; " ++
      "send tokens to the head of the chain")
    let activation ← s.stage.embed [token] position
    pure (session.getD defaultSession, activation)
  | .forward header body => do
    let activation ← Activation.fromBytes body
    pure (sessionOf header, activation)
  | .reset _ => .error "no activation"

/-- `token`, `forward` and `reset` -/
def serve (request : Request) : StageState × Reply :=
  match request with
  | .reset header =>
    -- a named sequence is forgotten on its own; an unnamed reset forgets everything
    let s' : StageState := { s with sessions := match header with
      | some id => if id.toList.all visible ∧ id ≠ "" then s.sessions.erase id else ∅
      | none => ∅ }
    match s.next with
    | none => (s', .answer (.ok []))
    | some address => (s', .pass address (.reset header))
  | _ =>
    match s.entering request with
    | .error e => (s, .answer (.error e))
    | .ok (id, activation) => s.advance ar id activation

end StageState

/-! ## A chain of servers -/

/-- what becomes of one hand-over: it is answered, it never reaches the next stage, or the answer comes too late -/
inductive Hop where
  | delivered
  | refused
  | late
deriving DecidableEq

def answered (address error : String) : String := s!"the stage at {address} answered 400 Bad Request: {error}"

/-- a request to the first server, with all it sets off: the servers afterwards, and the answer -/
def request (ar : Arith) : List StageState → List Hop → Request → List StageState × Check (List UInt8)
  | [], _, _ => ([], .error "connection refused")
  | s :: rest, hops, r =>
    match s.serve ar r with
    | (s', .answer out) => (s' :: rest, out)
    | (s', .pass address r') =>
      match hops.headD .delivered with
      | .refused => (s' :: rest, .error (StageState.handingOver address "connection refused"))
      | .delivered =>
        let down := request ar rest hops.tail r'
        (s' :: down.1, mapErr (answered address) down.2)
      | .late =>
        let down := request ar rest hops.tail r'
        (s' :: down.1, .error (StageState.handingOver address "operation timed out"))

/-! ## Failed requests -/

namespace StageState

variable (ar : Arith) {s : StageState}

/-- a stage turns a request away before it writes: what the request brings does not decode or embed, the sequence is new
and the stage is full, or the sequence is known and the activation does not follow on from what its cache holds -/
def TurnsAway (s : StageState) (r : Request) : Prop :=
  match s.entering r with
  | .error _ => True
  | .ok (id, activation) =>
    match s.sessions[id]? with
    | none => maxSessions ≤ s.sessions.size
    | some cache => ¬ (s.stage.Sized activation ∧ s.stage.InOrder cache activation)

/-- whatever is answered, the stage keeps the session as the pass left it -/
theorem advance_fst {id : String} {input : Activation} {cache : Session} (h : s.session id = .ok cache) :
    (s.advance ar id input).1 = { s with sessions := s.sessions.insert id (s.stage.forward ar cache input).1 } := by
  unfold advance
  rw [h]
  cases hr : (s.stage.forward ar cache input).2 with
  | error e => simp [hr]
  | ok output =>
    simp only [hr]
    cases s.next with
    | none => rfl
    | some address => split_ifs <;> rfl

theorem sessions_of_eq {t : Table String Session} (h : ({ s with sessions := t } : StageState) = s) : t = s.sessions :=
  congrArg StageState.sessions h

/-- a request that is turned away leaves the stage as it was -/
theorem serve_turnsAway (hl : s.stage.Loaded) {r : Request} (hr : ∀ header, r ≠ .reset header) (h : s.TurnsAway r) :
    ∃ e, s.serve ar r = (s, .answer (.error e)) := by
  have hserve : s.serve ar r = match s.entering r with
      | .error e => (s, .answer (.error e))
      | .ok (id, activation) => s.advance ar id activation := by
    cases r with
    | token token position session => rfl
    | forward header body => rfl
    | reset header => exact absurd rfl (hr header)
  rw [hserve]
  unfold TurnsAway at h
  cases hent : s.entering r with
  | error e => exact ⟨e, rfl⟩
  | ok entered =>
    obtain ⟨id, activation⟩ := entered
    rw [hent] at h
    simp only at h ⊢
    unfold advance session
    cases hget : s.sessions[id]? with
    | none =>
      rw [hget] at h
      simp only at h ⊢
      rw [if_pos h]
      exact ⟨_, rfl⟩
    | some cache =>
      rw [hget] at h
      obtain ⟨e, he⟩ := Stage.forward_refused ar hl h
      simp only [he, (Table.insert_eq_self_iff s.sessions id cache).2 hget]
      exact ⟨e, rfl⟩

/-- and one that is not has changed it, however it ends -/
theorem serve_writes (hl : s.stage.Loaded) {r : Request} (hr : ∀ header, r ≠ .reset header) (h : ¬ s.TurnsAway r) :
    (s.serve ar r).1 ≠ s := by
  unfold TurnsAway at h
  cases hent : s.entering r with
  | error e => rw [hent] at h; exact absurd trivial h
  | ok entered =>
    obtain ⟨id, activation⟩ := entered
    have hserve : s.serve ar r = s.advance ar id activation := by
      cases r with
      | token token position session => simp only [serve, hent]
      | forward header body => simp only [serve, hent]
      | reset header => exact absurd rfl (hr header)
    rw [hent] at h
    simp only at h
    rw [hserve]
    intro heq
    cases hget : s.sessions[id]? with
    | none =>
      rw [hget] at h
      have hsession : s.session id = .ok s.stage.session := by
        unfold session
        rw [hget]
        exact if_neg h
      rw [advance_fst ar hsession] at heq
      have := (Table.insert_eq_self_iff _ _ _).1 (sessions_of_eq heq)
      rw [hget] at this
      cases this
    | some cache =>
      rw [hget] at h
      simp only [not_not] at h
      have hsession : s.session id = .ok cache := by
        unfold session
        rw [hget]
      rw [advance_fst ar hsession] at heq
      have hsame := (Table.insert_eq_self_iff _ _ _).1 (sessions_of_eq heq)
      rw [hget] at hsame
      exact Stage.forward_writes ar hl h.1 h.2 (Option.some.inj hsame).symm

end StageState

/-- the first server after a request is what serving it there leaves -/
theorem request_head (ar : Arith) (s : StageState) (rest : List StageState) (hops : List Hop) (r : Request) :
    (request ar (s :: rest) hops r).1.head? = some (s.serve ar r).1 := by
  simp only [request]
  cases hs : s.serve ar r with
  | mk s' reply =>
    cases reply with
    | answer out => rfl
    | pass address r' =>
      cases hops.headD .delivered <;> rfl

/-- **A failed request changes nothing exactly when the stage it arrives at turns it away.** Every other failure (a
position out of order further down, a hop refused, an error or a late answer from below) leaves the session it created or
the position it wrote behind. -/
theorem failed_request_unchanged (ar : Arith) (chain : List StageState) (hl : ∀ s ∈ chain, s.stage.Loaded)
    (hops : List Hop) (r : Request) (hr : ∀ header, r ≠ .reset header) (e : String)
    (herr : (request ar chain hops r).2 = .error e) :
    (request ar chain hops r).1 = chain ↔ ∀ s ∈ chain.head?, s.TurnsAway r := by
  cases chain with
  | nil => simp [request]
  | cons s rest =>
    have hs := hl s List.mem_cons_self
    have hhead := request_head ar s rest hops r
    constructor
    · intro hsame x hx
      obtain rfl : s = x := Option.some.inj hx
      by_contra hway
      rw [hsame] at hhead
      exact StageState.serve_writes ar hs hr hway (Option.some.inj hhead).symm
    · intro hall
      obtain ⟨e', he'⟩ := StageState.serve_turnsAway ar hs hr (hall s rfl)
      simp only [request, he']


/-! ## A model of two blocks -/

namespace Sample

/- the few `f32` values the passes of this model come to, with what the machine makes of them -/
def half : F32 := 0x3F000000
def one : F32 := 0x3F800000
def two : F32 := 0x40000000
def negZero : F32 := 0x80000000
def negInfinity : F32 := 0xFF800000

def isZero (x : F32) : Bool := x = 0 ∨ x = negZero

def arith : Arith where
  zero := 0
  one := one
  negInfinity := negInfinity
  sumStart := negZero
  ofNat n := if n = 0 then 0 else if n = 1 then one else two
  neg x := x ^^^ negZero
  add x y := if isZero x then (if isZero y then 0 else y) else if isZero y then x
    else if x = half then one else two
  sub x y := if isZero y then x else 0
  mul x y := if isZero x ∨ isZero y then 0 else if x = one then y else if y = one then x else one
  div x y := if isZero x then 0 else if y = one then x else if x = one then half else one
  max x y := if x = negInfinity then y else if y = negInfinity then x else if x < y then y else x
  powf _ _ := one
  sqrt x := x
  exp _ := one
  sinCos _ := (0, one)
  gt x y := if x = negInfinity then false else y = negInfinity ∨ y < x

theorem one_head : (0 : UInt32) < 1 := by decide

theorem one_group : (1 : UInt32).toNat ∣ (1 : UInt32).toNat := by decide

theorem rope_fits : (0 : UInt32) ≤ 1 := by decide

theorem rope_pairs : 2 ∣ (0 : UInt32).toNat := by decide

def config : ModelConfig where
  ropeStyle := .interleaved
  blockCount := 2
  embeddingLength := 1
  headCount := 1
  headCountKv := 1
  feedForwardLength := 1
  keyLength := 1
  valueLength := 1
  rmsNormEps := 0
  ropeTheta := one
  ropeDimensionCount := 0
  vocabSize := 2
  headCount_pos := one_head
  headCountKv_pos := one_head
  heads_grouped := one_group
  keyLength_pos := one_head
  valueLength_pos := one_head
  rope_within := rope_fits
  rope_even := rope_pairs

def vector (v : F32) : Tensor := ⟨[1], [v], rfl, by simp⟩

def matrix (v : F32) : Tensor := ⟨[1, 1], [v], rfl, by simp⟩

/-- the embedding table, and the head the model ties to it -/
def table : Tensor := ⟨[1, 2], [one, one], rfl, by simp⟩

def block : BlockWeights where
  attnNorm := vector one
  attnQ := matrix 0
  attnK := matrix 0
  attnV := matrix one
  attnOutput := matrix 0
  ffnNorm := vector one
  ffnGate := matrix 0
  ffnUp := matrix 0
  ffnDown := matrix 0
  attnQNorm := none
  attnKNorm := none
  attnQBias := none
  attnKBias := none
  attnVBias := none
  attnOutputBias := none

def blockTensors (i : ℕ) : List TensorEntry :=
  [⟨s!"blk.{i}.attn_norm.weight", .ok (vector one)⟩, ⟨s!"blk.{i}.attn_q.weight", .ok (matrix 0)⟩,
    ⟨s!"blk.{i}.attn_k.weight", .ok (matrix 0)⟩, ⟨s!"blk.{i}.attn_v.weight", .ok (matrix one)⟩,
    ⟨s!"blk.{i}.attn_output.weight", .ok (matrix 0)⟩, ⟨s!"blk.{i}.ffn_norm.weight", .ok (vector one)⟩,
    ⟨s!"blk.{i}.ffn_gate.weight", .ok (matrix 0)⟩, ⟨s!"blk.{i}.ffn_up.weight", .ok (matrix 0)⟩,
    ⟨s!"blk.{i}.ffn_down.weight", .ok (matrix 0)⟩]

def file : WeightFile where
  config := .ok config
  tensors := ⟨"token_embd.weight", .ok table⟩ :: blockTensors 0 ++ blockTensors 1 ++
    [⟨"output_norm.weight", .ok (vector one)⟩]

def head : Stage := ⟨config, 0, 1, some table, none, none, [block]⟩

def tail : Stage := ⟨config, 1, 2, none, some (vector one), some table, [block]⟩

theorem loadAll_file : Stage.loadAll file 0 [1, 2] = .ok [head, tail] := by
  decide +kernel

def chain : List StageState := [⟨head, ∅, some "b"⟩, ⟨tail, ∅, none⟩]

theorem chain_loaded : ∀ s ∈ chain, s.stage.Loaded := by
  have hload := loadAll_file
  simp only [Stage.loadAll, bind_ok, pure_ok, List.cons.injEq] at hload
  obtain ⟨_, hhead, _, ⟨_, htail, _, rfl, rfl⟩, rfl, rfl, -⟩ := hload
  intro s hs
  rcases List.mem_cons.1 hs with rfl | hs
  · exact Stage.loaded_of_load hhead
  · obtain rfl := List.mem_singleton.1 hs
    exact Stage.loaded_of_load htail

end Sample

/-- a token outside the vocabulary is turned away by the head -/
theorem bad_token_unchanged : (request Sample.arith Sample.chain [] (.token 9 0 none)).1 = Sample.chain := by
  have herr : ∃ e, (request Sample.arith Sample.chain [] (.token 9 0 none)).2 = .error e := ⟨_, rfl⟩
  obtain ⟨e, he⟩ := herr
  refine (failed_request_unchanged Sample.arith Sample.chain Sample.chain_loaded [] (.token 9 0 none) (by simp) e he).2 ?_
  intro s hs
  obtain rfl := Option.some.inj hs
  trivial

/-- A token the head has run, with the next stage out of reach, fails and leaves its session and its position at the
head; and so does one that arrives out of order under a new name. -/
theorem failed_request_writes :
    (∃ e, (request Sample.arith Sample.chain [.refused] (.token 0 0 (some "run-7-0"))).2 = .error e) ∧
      (request Sample.arith Sample.chain [.refused] (.token 0 0 (some "run-7-0"))).1 ≠ Sample.chain ∧
      (∃ e, (request Sample.arith Sample.chain [] (.token 0 3 (some "run-7-0"))).2 = .error e) ∧
      (request Sample.arith Sample.chain [] (.token 0 3 (some "run-7-0"))).1 ≠ Sample.chain := by
  have hhead : ∀ hops r, (request Sample.arith Sample.chain hops r).1 = Sample.chain →
      ((request Sample.arith Sample.chain hops r).1.head?.map fun s => s.sessions.size) = some 0 := by
    intro hops r h
    rw [h]
    rfl
  refine ⟨⟨_, rfl⟩, fun h => ?_, ⟨_, rfl⟩, fun h => ?_⟩
  · have hsize := hhead _ _ h
    revert hsize
    decide +kernel
  · have hsize := hhead _ _ h
    revert hsize
    decide +kernel

end Hocmesh.Node
