/-
The coordinator's connection pool (`hocmesh-coordinator/src/db.rs`): `Pool::get`, the drop of a `PooledConnection`, and any
number of threads that call them, one critical section after another in any order.

A connection is opened outside the lock, so `live` counts it before it exists and is taken back when the open fails. Waiting
is a condition variable: a drop wakes one call, a woken call may find that another was faster and sleep again, and a call
may wake for no reason. `Sound` is the invariant. Its last part is why no wake-up is lost: while a call sleeps, every idle
connection has a woken call on its way to it.
-/
import Mathlib.Tactic
import Mathlib.Data.List.Nodup

namespace Hocmesh.Coordinator.Pooling

/-- a connection, by the order in which the pool opened it -/
abbrev Connection := ℕ

/-- what the pool's mutex guards: `live` are the connections that exist, idle or lent out, and those being opened -/
structure PoolState where
  idle : List Connection
  live : ℕ

/-- how one pass of the loop in `get` ends -/
inductive Pass where
  | lend (conn : Connection)
  | grow
  | wait

/-- one pass of the loop, under the lock -/
def PoolState.pass (max : ℕ) (s : PoolState) : Pass × PoolState :=
  match s.idle.getLast? with
  | some conn => (.lend conn, { s with idle := s.idle.dropLast })
  | none => if s.live < max then (.grow, { s with live := s.live + 1 }) else (.wait, s)

/-- the pool, the connections that are out, and the calls of `get` under way -/
structure Pool where
  max : ℕ
  state : PoolState
  /-- which call got which connection -/
  lent : List (ℕ × Connection)
  opening : List ℕ
  sleeping : List ℕ
  woken : List ℕ
  /-- how many connections were opened so far -/
  opened : ℕ

/-- what happens next: a call of `get` gets the lock for the first time or after it was woken, `connect` comes back to a call
that opens, a connection goes back and the sleeper at a place is notified, a sleeper wakes by itself -/
inductive Move where
  | get (call : ℕ)
  | wake (call : ℕ)
  | connected (call : ℕ) (ok : Bool)
  | drop (conn : Connection) (place : ℕ)
  | spurious (call : ℕ)

/-- what `get` returns: the call, and its connection unless the open failed -/
abbrev Answer := ℕ × Option Connection

namespace Pool

/-- `Pool::open`, on a machine of a certain parallelism where that is known -/
def start (parallelism : Option ℕ) : Pool :=
  { max := min (Max.max (parallelism.getD 4) 4) 32, state := ⟨[0], 1⟩, lent := [], opening := [], sleeping := [], woken := []
    opened := 1 }

variable (s : Pool)

/-- a call at the lock -/
def attempt (call : ℕ) : Option Answer × Pool :=
  match s.state.pass s.max with
  | (.lend conn, state) => (some (call, some conn), { s with state := state, lent := (call, conn) :: s.lent })
  | (.grow, state) => (none, { s with state := state, opening := call :: s.opening })
  | (.wait, state) => (none, { s with state := state, sleeping := call :: s.sleeping })

/-- `notify_one`: which of the sleepers it is, the condition variable decides -/
def notifyOne (place : ℕ) : Pool :=
  match s.sleeping[place % s.sleeping.length]? with
  | some call => { s with sleeping := s.sleeping.erase call, woken := call :: s.woken }
  | none => s

/-- `connect` came back: only a failed one goes through the lock again, and notifies nobody -/
def opens (call : ℕ) (ok : Bool) : Option Answer × Pool :=
  let rest := s.opening.erase call
  if ok then
    (some (call, some s.opened), { s with opening := rest, lent := (call, s.opened) :: s.lent, opened := s.opened + 1 })
  else (some (call, none), { s with opening := rest, state := { s.state with live := s.state.live - 1 } })

/-- a connection goes back -/
def giveBack (loan : ℕ × Connection) (place : ℕ) : Pool :=
  notifyOne { s with lent := s.lent.erase loan, state := { s.state with idle := s.state.idle ++ [loan.2] } } place

/-- what the step answers to a call, and the pool it leaves -/
def step : Move → Option Answer × Pool
  | .get call => s.attempt call
  | .wake call => if call ∈ s.woken then attempt { s with woken := s.woken.erase call } call else (none, s)
  | .connected call ok => if call ∈ s.opening then s.opens call ok else (none, s)
  | .drop conn place =>
    match s.lent.find? fun loan => loan.2 = conn with
    | some loan => (none, s.giveBack loan place)
    | none => (none, s)
  | .spurious call =>
    if call ∈ s.sleeping then (none, { s with sleeping := s.sleeping.erase call, woken := call :: s.woken }) else (none, s)

def run (moves : List Move) : Pool := moves.foldl (fun s move => (s.step move).2) s

/-- everything the calls of a run were answered -/
def answers : Pool → List Move → List Answer
  | _, [] => []
  | s, move :: moves => (s.step move).1.toList ++ answers (s.step move).2 moves

/-- the calls under way -/
def calls : List ℕ := s.opening ++ s.sleeping ++ s.woken

end Pool

/-! ## The invariant -/

/-- the counts are exact, nobody holds what somebody else holds, and no wake-up is lost -/
structure Pool.Sound (s : Pool) (bound : ℕ) : Prop where
  max_eq : s.max = bound
  live_eq : s.state.live = s.state.idle.length + s.lent.length + s.opening.length
  le_max : s.state.live ≤ s.max
  apart : (s.state.idle ++ s.lent.map (·.2)).Nodup
  old : ∀ conn ∈ s.state.idle ++ s.lent.map (·.2), conn < s.opened
  some_open : 0 < s.state.idle.length + s.lent.length
  awake : s.sleeping ≠ [] → s.state.idle.length ≤ s.woken.length

section

variable {s : Pool} {bound : ℕ}

theorem pass_cases (max : ℕ) (state : PoolState) :
    (∃ idle conn, state.idle = idle ++ [conn] ∧ state.pass max = (.lend conn, { state with idle := idle })) ∨
    (state.idle = [] ∧ state.live < max ∧ state.pass max = (.grow, { state with live := state.live + 1 })) ∨
    (state.idle = [] ∧ max ≤ state.live ∧ state.pass max = (.wait, state)) := by
  rcases List.eq_nil_or_concat state.idle with hnil | ⟨idle, conn, hidle⟩
  · by_cases hroom : state.live < max
    · refine Or.inr (Or.inl ⟨hnil, hroom, ?_⟩)
      simp [PoolState.pass, hnil, hroom]
    · refine Or.inr (Or.inr ⟨hnil, not_lt.1 hroom, ?_⟩)
      simp [PoolState.pass, hnil, hroom]
  · rw [List.concat_eq_append] at hidle
    refine Or.inl ⟨idle, conn, hidle, ?_⟩
    simp [PoolState.pass, hidle]

/-- everything a call at the lock can do -/
theorem Pool.attempt_cases (s : Pool) (call : ℕ) :
    (∃ idle conn, s.state.idle = idle ++ [conn] ∧ s.attempt call =
      (some (call, some conn), { s with state := { s.state with idle := idle }, lent := (call, conn) :: s.lent })) ∨
    (s.state.idle = [] ∧ s.state.live < s.max ∧ s.attempt call =
      (none, { s with state := { s.state with live := s.state.live + 1 }, opening := call :: s.opening })) ∨
    (s.state.idle = [] ∧ s.max ≤ s.state.live ∧ s.attempt call = (none, { s with sleeping := call :: s.sleeping })) := by
  rcases pass_cases s.max s.state with ⟨idle, conn, hidle, hpass⟩ | ⟨hnil, hroom, hpass⟩ | ⟨hnil, hfull, hpass⟩
  · exact Or.inl ⟨idle, conn, hidle, by rw [Pool.attempt, hpass]⟩
  · exact Or.inr (Or.inl ⟨hnil, hroom, by rw [Pool.attempt, hpass]⟩)
  · exact Or.inr (Or.inr ⟨hnil, hfull, by rw [Pool.attempt, hpass]⟩)

/-- a notification moves one sleeper, if there is one -/
theorem Pool.notifyOne_cases (s : Pool) (place : ℕ) :
    (s.sleeping = [] ∧ s.notifyOne place = s) ∨
    ∃ call ∈ s.sleeping, s.notifyOne place = { s with sleeping := s.sleeping.erase call, woken := call :: s.woken } := by
  unfold Pool.notifyOne
  cases hcall : s.sleeping[place % s.sleeping.length]? with
  | none =>
    refine Or.inl ⟨?_, rfl⟩
    rw [List.getElem?_eq_none_iff] at hcall
    by_contra hne
    exact absurd (Nat.mod_lt place (List.length_pos_iff.2 hne)) (not_lt.2 hcall)
  | some call => exact Or.inr ⟨call, List.mem_of_getElem? hcall, rfl⟩

/-- a call at the lock keeps the pool sound, also when it has just left `woken` -/
theorem Pool.Sound.attempt (h : s.Sound bound) (call : ℕ) {woken : List ℕ} (hwoken : s.woken.length ≤ woken.length + 1) :
    ((Pool.attempt { s with woken := woken } call).2).Sound bound := by
  rcases Pool.attempt_cases { s with woken := woken } call with
    ⟨idle, conn, hidle, heq⟩ | ⟨hnil, hroom, heq⟩ | ⟨hnil, hfull, heq⟩
  · rw [heq]
    have hidle : s.state.idle = idle ++ [conn] := hidle
    have hperm : (idle ++ conn :: s.lent.map (·.2)).Perm (s.state.idle ++ s.lent.map (·.2)) := by
      rw [hidle, List.append_assoc, List.singleton_append]
    have hlen : s.state.idle.length = idle.length + 1 := by rw [hidle, List.length_append, List.length_singleton]
    constructor
    case max_eq => exact h.max_eq
    case live_eq =>
      have := h.live_eq
      simp only [List.length_cons]
      omega
    case le_max => exact h.le_max
    case apart => exact hperm.nodup_iff.2 h.apart
    case old => exact fun c hc => h.old c (hperm.mem_iff.1 hc)
    case some_open =>
      simp only [List.length_cons]
      omega
    case awake =>
      intro hsleep
      have := h.awake hsleep
      dsimp only
      omega
  · rw [heq]
    have hnil : s.state.idle = [] := hnil
    have hroom : s.state.live < s.max := hroom
    constructor
    case max_eq => exact h.max_eq
    case live_eq =>
      have := h.live_eq
      simp only [List.length_cons]
      omega
    case le_max => exact hroom
    case apart => exact h.apart
    case old => exact h.old
    case some_open => exact h.some_open
    case awake =>
      intro _
      simp only [hnil, List.length_nil, Nat.zero_le]
  · rw [heq]
    have hnil : s.state.idle = [] := hnil
    constructor
    case max_eq => exact h.max_eq
    case live_eq => exact h.live_eq
    case le_max => exact h.le_max
    case apart => exact h.apart
    case old => exact h.old
    case some_open => exact h.some_open
    case awake =>
      intro _
      simp only [hnil, List.length_nil, Nat.zero_le]

theorem Pool.Sound.notifyOne (h : s.Sound bound) (place : ℕ) {idle : List Connection} {lent : List (ℕ × Connection)}
    (hlive : s.state.live = idle.length + lent.length + s.opening.length)
    (hperm : (idle ++ lent.map (·.2)).Perm (s.state.idle ++ s.lent.map (·.2)))
    (hidle : idle.length ≤ s.state.idle.length + 1) :
    (Pool.notifyOne { s with lent := lent, state := { s.state with idle := idle } } place).Sound bound := by
  have hsome : 0 < idle.length + lent.length := by
    have hlen := hperm.length_eq
    simp only [List.length_append, List.length_map] at hlen
    have := h.some_open
    omega
  rcases Pool.notifyOne_cases { s with lent := lent, state := { s.state with idle := idle } } place with
    ⟨hnil, heq⟩ | ⟨call, hcall, heq⟩
  · rw [heq]
    have hnil : s.sleeping = [] := hnil
    exact ⟨h.max_eq, hlive, h.le_max, hperm.nodup_iff.2 h.apart, fun c hc => h.old c (hperm.mem_iff.1 hc), hsome,
      fun hsleep => absurd hnil hsleep⟩
  · rw [heq]
    refine ⟨h.max_eq, hlive, h.le_max, hperm.nodup_iff.2 h.apart, fun c hc => h.old c (hperm.mem_iff.1 hc), hsome, ?_⟩
    intro _
    have := h.awake (List.ne_nil_of_mem hcall)
    simp only [List.length_cons]
    omega

/-- a connection that goes back is idle, and whoever waits has one call more on its way -/
theorem Pool.Sound.giveBack (h : s.Sound bound) {loan : ℕ × Connection} (hloan : loan ∈ s.lent) (place : ℕ) :
    (s.giveBack loan place).Sound bound := by
  have hlent : s.lent.Perm (loan :: s.lent.erase loan) := List.perm_cons_erase hloan
  refine h.notifyOne place ?_ ?_ ?_
  · have hlen := hlent.length_eq
    have := h.live_eq
    simp only [List.length_cons, List.length_append, List.length_nil] at hlen ⊢
    omega
  · rw [List.append_assoc, List.singleton_append]
    exact ((hlent.map (·.2)).append_left s.state.idle).symm
  · rw [List.length_append, List.length_singleton]

theorem Pool.Sound.opens (h : s.Sound bound) {call : ℕ} (hcall : call ∈ s.opening) (ok : Bool) : (s.opens call ok).2.Sound bound := by
  have hlen := List.length_erase_of_mem hcall
  have hpos := List.length_pos_of_mem hcall
  have hlive := h.live_eq
  have hmax := h.le_max
  have hsome := h.some_open
  cases ok with
  | true =>
    have hnew : s.opened ∉ s.state.idle ++ s.lent.map (·.2) := fun hin => lt_irrefl _ (h.old _ hin)
    have hperm : (s.state.idle ++ s.opened :: s.lent.map (·.2)).Perm (s.opened :: (s.state.idle ++ s.lent.map (·.2))) :=
      List.perm_middle
    constructor
    case max_eq => exact h.max_eq
    case live_eq =>
      simp only [Pool.opens, if_true, List.length_cons]
      omega
    case le_max => exact hmax
    case apart => exact hperm.nodup_iff.2 (List.nodup_cons.2 ⟨hnew, h.apart⟩)
    case old =>
      intro conn hconn
      rcases List.mem_cons.1 (hperm.mem_iff.1 hconn) with rfl | hold
      · exact Nat.lt_succ_self _
      · exact Nat.lt_succ_of_lt (h.old conn hold)
    case some_open =>
      simp only [Pool.opens, if_true, List.length_cons]
      omega
    case awake => exact h.awake
  | false =>
    constructor
    case max_eq => exact h.max_eq
    case live_eq =>
      simp only [Pool.opens, Bool.false_eq_true, if_false]
      omega
    case le_max => exact (Nat.sub_le _ _).trans hmax
    case apart => exact h.apart
    case old => exact h.old
    case some_open => exact hsome
    case awake => exact h.awake

/-- **Step.** -/
theorem Pool.Sound.step (h : s.Sound bound) (move : Move) : (s.step move).2.Sound bound := by
  cases move with
  | get call => exact h.attempt call (Nat.le_succ _)
  | wake call =>
    simp only [Pool.step]
    split_ifs with hcall
    · refine h.attempt call ?_
      have := List.length_erase_of_mem hcall
      omega
    · exact h
  | connected call ok =>
    simp only [Pool.step]
    split_ifs with hcall
    · exact h.opens hcall ok
    · exact h
  | drop conn place =>
    simp only [Pool.step]
    split
    · rename_i loan hloan
      exact h.giveBack (List.mem_of_find?_eq_some hloan) place
    · exact h
  | spurious call =>
    simp only [Pool.step]
    split_ifs with hcall
    · refine ⟨h.max_eq, h.live_eq, h.le_max, h.apart, h.old, h.some_open, ?_⟩
      intro _
      exact (h.awake (List.ne_nil_of_mem hcall)).trans (Nat.le_succ _)
    · exact h

theorem sound_start (parallelism : Option ℕ) : (Pool.start parallelism).Sound (min (max (parallelism.getD 4) 4) 32) where
  max_eq := rfl
  live_eq := rfl
  le_max := by
    change 1 ≤ min (max (parallelism.getD 4) 4) 32
    omega
  apart := by simp [Pool.start]
  old := by simp [Pool.start]
  some_open := by simp [Pool.start]
  awake := fun h => absurd rfl h

theorem Pool.run_cons (s : Pool) (move : Move) (moves : List Move) : s.run (move :: moves) = (s.step move).2.run moves := rfl

theorem Pool.Sound.run (moves : List Move) : ∀ {s : Pool}, s.Sound bound → (s.run moves).Sound bound := by
  induction moves with
  | nil => exact fun h => h
  | cons move moves ih => exact fun h => ih (h.step move)

/-! ## Every call is answered once -/

/-- the call a move starts -/
def Move.starts : Move → Option ℕ
  | .get call => some call
  | _ => none

/-- a call that had the lock was answered or is under way -/
theorem Pool.attempt_calls (s : Pool) (call : ℕ) :
    ((s.attempt call).1.toList.map (·.1) ++ (s.attempt call).2.calls).Perm (call :: s.calls) := by
  rcases s.attempt_cases call with ⟨idle, conn, -, heq⟩ | ⟨-, -, heq⟩ | ⟨-, -, heq⟩
  · rw [heq]
    exact List.Perm.refl _
  · rw [heq]
    exact List.Perm.refl _
  · rw [heq]
    simp only [Option.toList_none, List.map_nil, List.nil_append, Pool.calls, List.append_assoc, List.cons_append]
    exact List.perm_middle

theorem Pool.notifyOne_calls (s : Pool) (place : ℕ) : (s.notifyOne place).calls.Perm s.calls := by
  rcases s.notifyOne_cases place with ⟨-, heq⟩ | ⟨call, hcall, heq⟩
  · rw [heq]
  · rw [heq]
    simp only [Pool.calls, List.append_assoc]
    refine List.Perm.append_left s.opening ?_
    exact List.perm_middle.trans ((List.perm_cons_erase hcall).symm.append_right s.woken)

/-- **Step.** A move answers one of the calls that were under way or starts, or none, and loses none. -/
theorem Pool.step_calls (s : Pool) (move : Move) :
    ((s.step move).1.toList.map (·.1) ++ (s.step move).2.calls).Perm (move.starts.toList ++ s.calls) := by
  cases move with
  | get call => exact s.attempt_calls call
  | wake call =>
    simp only [Pool.step]
    split_ifs with hcall
    · refine (Pool.attempt_calls _ call).trans ?_
      simp only [Pool.calls, Move.starts, Option.toList_none, List.nil_append]
      exact List.perm_middle.symm.trans ((List.perm_cons_erase hcall).symm.append_left _)
    · exact List.Perm.refl _
  | connected call ok =>
    simp only [Pool.step]
    split_ifs with hcall
    · have hperm : (call :: (s.opening.erase call ++ s.sleeping ++ s.woken)).Perm s.calls := by
        simp only [Pool.calls, List.append_assoc]
        exact (List.perm_cons_erase hcall).symm.append_right _
      cases ok with
      | true => exact hperm
      | false => exact hperm
    · exact List.Perm.refl _
  | drop conn place =>
    simp only [Pool.step]
    split
    · exact Pool.notifyOne_calls _ place
    · exact List.Perm.refl _
  | spurious call =>
    simp only [Pool.step]
    split_ifs with hcall
    · simp only [Pool.calls, Move.starts, Option.toList_none, List.map_nil, List.nil_append, List.append_assoc]
      refine List.Perm.append_left s.opening ?_
      exact List.perm_middle.trans ((List.perm_cons_erase hcall).symm.append_right s.woken)
    · exact List.Perm.refl _

theorem Pool.run_calls (moves : List Move) : ∀ s : Pool,
    ((s.answers moves).map (·.1) ++ (s.run moves).calls).Perm (moves.filterMap Move.starts ++ s.calls) := by
  induction moves with
  | nil => exact fun s => List.Perm.refl _
  | cons move moves ih =>
    intro s
    have hrest := ih (s.step move).2
    have hstarts : (move :: moves).filterMap Move.starts = move.starts.toList ++ moves.filterMap Move.starts := by
      cases hmove : move.starts with
      | none => rw [List.filterMap_cons_none hmove, Option.toList_none, List.nil_append]
      | some call => rw [List.filterMap_cons_some hmove, Option.toList_some, List.singleton_append]
    rw [Pool.answers, Pool.run_cons, List.map_append, hstarts, List.append_assoc]
    refine (hrest.append_left _).trans ?_
    rw [← List.append_assoc]
    refine (List.perm_append_comm.append_right _).trans ?_
    rw [List.append_assoc, List.append_assoc]
    refine ((s.step_calls move).append_left _).trans ?_
    rw [← List.append_assoc, ← List.append_assoc]
    exact List.perm_append_comm.append_right _

end

/-- **The pool is sound.** However calls, wake-ups, opens and drops are interleaved, and however opens fail: the connections
that are idle, out or being opened are those that are counted, and never more than the maximum; no connection is in two
hands, or idle and in a hand; every call of `get` was answered exactly once or is still under way; and while a call sleeps
every idle connection has a woken call on its way. -/
theorem pool_sound (parallelism : Option ℕ) (moves : List Move) :
    let s := (Pool.start parallelism).run moves
    s.state.live = s.state.idle.length + s.lent.length + s.opening.length ∧
    s.state.live ≤ min (max (parallelism.getD 4) 4) 32 ∧
    (s.state.idle ++ s.lent.map (·.2)).Nodup ∧
    (((Pool.start parallelism).answers moves).map (·.1) ++ s.calls).Perm (moves.filterMap Move.starts) ∧
    (s.sleeping ≠ [] → s.state.idle.length ≤ s.woken.length) := by
  intro s
  have h : s.Sound (min (max (parallelism.getD 4) 4) 32) := (sound_start parallelism).run moves
  refine ⟨h.live_eq, ?_, h.apart, ?_, h.awake⟩
  · calc s.state.live ≤ s.max := h.le_max
      _ = min (max (parallelism.getD 4) 4) 32 := h.max_eq
  · have hcalls := Pool.run_calls moves (Pool.start parallelism)
    rwa [show (Pool.start parallelism).calls = [] from rfl, List.append_nil] at hcalls

/-! ## Nobody waits for ever -/

/-- a move that finishes what is under way: a woken call goes to the lock, an open succeeds, a connection goes back -/
def Move.Finishes : Move → Prop
  | .wake _ => True
  | .connected _ ok => ok = true
  | .drop _ _ => True
  | _ => False

/-- some moves that only finish what is under way leave fewer calls waiting -/
def Pool.Serves (s : Pool) : Prop :=
  ∃ more : List Move, (∀ move ∈ more, move.Finishes) ∧ (s.run more).calls.length < s.calls.length

section

variable {s : Pool} {bound : ℕ}

theorem Move.Finishes.starts_nil {move : Move} (h : move.Finishes) : move.starts = none := by
  cases move with
  | get call => exact h.elim
  | wake call => rfl
  | connected call ok => rfl
  | drop conn place => rfl
  | spurious call => rfl

/-- a call that is answered is no longer under way -/
theorem Pool.Serves.of_answer {m : Move} (hmove : m.Finishes) (hanswer : (s.step m).1 ≠ none) : s.Serves := by
  refine ⟨[m], by simpa using hmove, ?_⟩
  have hlen := (s.step_calls m).length_eq
  obtain ⟨answer, hsome⟩ := Option.ne_none_iff_exists'.1 hanswer
  rw [hmove.starts_nil, hsome, Option.toList_none, Option.toList_some, List.nil_append, List.map_singleton,
    List.singleton_append, List.length_cons] at hlen
  change (s.step m).2.calls.length < s.calls.length
  omega

/-- a move that answers nobody puts nobody further back -/
theorem Pool.Serves.of_step {m : Move} (hmove : m.Finishes) (h : (s.step m).2.Serves) : s.Serves := by
  obtain ⟨more, hmore, hfewer⟩ := h
  refine ⟨m :: more, List.forall_mem_cons.2 ⟨hmove, hmore⟩, ?_⟩
  have hlen := (s.step_calls m).length_eq
  rw [hmove.starts_nil, Option.toList_none, List.nil_append, List.length_append] at hlen
  calc (s.run (m :: more)).calls.length = ((s.step m).2.run more).calls.length := rfl
    _ < (s.step m).2.calls.length := hfewer
    _ ≤ s.calls.length := by rw [← hlen]; exact Nat.le_add_left _ _

/-- a call that opens is answered when the open succeeds -/
theorem Pool.serves_of_opening (hopening : s.opening ≠ []) : s.Serves := by
  obtain ⟨call, hcall⟩ := List.exists_mem_of_ne_nil _ hopening
  refine Pool.Serves.of_answer (m := .connected call true) rfl ?_
  simp [Pool.step, hcall, Pool.opens]

/-- a woken call takes an idle connection -/
theorem Pool.serves_of_idle (hidle : s.state.idle ≠ []) {call : ℕ} (hcall : call ∈ s.woken) : s.Serves := by
  refine Pool.Serves.of_answer (m := .wake call) trivial ?_
  simp only [Pool.step, if_pos hcall]
  rcases Pool.attempt_cases { s with woken := s.woken.erase call } call with
    ⟨idle, conn, -, heq⟩ | ⟨hnil, -, -⟩ | ⟨hnil, -, -⟩
  · rw [heq]
    exact Option.some_ne_none _
  · exact absurd hnil hidle
  · exact absurd hnil hidle

/-- where everybody sleeps some connection is out, and its return serves a sleeper -/
theorem Pool.Sound.serves_of_sleeping (h : s.Sound bound) (hsleep : s.sleeping ≠ []) (hwoken : s.woken = []) : s.Serves := by
  have hidle : s.state.idle.length = 0 := by
    have := h.awake hsleep
    rw [hwoken, List.length_nil] at this
    exact Nat.le_zero.1 this
  have hsome := h.some_open
  obtain ⟨loan, hloan⟩ := List.exists_mem_of_length_pos (by omega : 0 < s.lent.length)
  refine Pool.Serves.of_step (m := .drop loan.2 0) trivial ?_
  simp only [Pool.step]
  split
  · rename_i found _
    unfold Pool.giveBack
    rcases Pool.notifyOne_cases { s with lent := s.lent.erase found, state := { s.state with idle := s.state.idle ++ [found.2] } }
      0 with ⟨hnil, -⟩ | ⟨call, -, heq⟩
    · exact absurd hnil hsleep
    · rw [heq]
      exact Pool.serves_of_idle (by simp) (List.mem_cons_self ..)
  · rename_i hnone
    have := List.find?_eq_none.1 hnone loan hloan
    simp at this

/-- **Progress.** A sound pool with a call under way can serve one. The induction is on the woken calls: one that finds
nothing sleeps again. -/
theorem Pool.Sound.serves (n : ℕ) : ∀ {s : Pool}, s.Sound bound → s.woken.length = n → s.calls ≠ [] → s.Serves := by
  induction n with
  | zero =>
    intro s h hn hcalls
    rw [List.length_eq_zero_iff] at hn
    by_cases hopening : s.opening = []
    · refine h.serves_of_sleeping ?_ hn
      intro hsleep
      exact hcalls (by rw [Pool.calls, hopening, hsleep, hn]; rfl)
    · exact Pool.serves_of_opening hopening
  | succ n ih =>
    intro s h hn hcalls
    obtain ⟨call, hcall⟩ := List.exists_mem_of_length_pos (by omega : 0 < s.woken.length)
    have hstep : s.step (.wake call) = Pool.attempt { s with woken := s.woken.erase call } call := if_pos hcall
    rcases Pool.attempt_cases { s with woken := s.woken.erase call } call with
      ⟨idle, conn, hidle, -⟩ | ⟨-, -, heq⟩ | ⟨-, -, heq⟩
    · refine Pool.serves_of_idle ?_ hcall
      intro hnil
      rw [show s.state.idle = idle ++ [conn] from hidle] at hnil
      simp at hnil
    · refine Pool.Serves.of_step (m := .wake call) trivial ?_
      rw [hstep, heq]
      exact Pool.serves_of_opening (List.cons_ne_nil _ _)
    · refine Pool.Serves.of_step (m := .wake call) trivial (ih (h.step _) ?_ ?_)
      · have := List.length_erase_of_mem hcall
        rw [hstep, heq]
        dsimp only
        omega
      · rw [hstep, heq]
        simp [Pool.calls]

/-- moves that finish what is under way answer it with connections -/
theorem Pool.answers_some (more : List Move) : ∀ s : Pool, (∀ move ∈ more, move.Finishes) →
    ∀ answer ∈ s.answers more, answer.2.isSome = true := by
  induction more with
  | nil => exact fun _ _ answer h => nomatch h
  | cons move more ih =>
    intro s hmore answer hanswer
    obtain ⟨hmove, hmore⟩ := List.forall_mem_cons.1 hmore
    rcases List.mem_append.1 hanswer with hone | hrest
    · rw [Option.mem_toList] at hone
      cases move with
      | get call => exact hmove.elim
      | wake call =>
        simp only [Pool.step] at hone
        split_ifs at hone
        · rcases Pool.attempt_cases { s with woken := s.woken.erase call } call with
            ⟨idle, conn, -, heq⟩ | ⟨-, -, heq⟩ | ⟨-, -, heq⟩
          · rw [heq] at hone
            rw [← Option.some.inj hone]
            rfl
          · rw [heq] at hone
            cases hone
          · rw [heq] at hone
            cases hone
      | connected call ok =>
        obtain rfl : ok = true := hmove
        simp only [Pool.step, Pool.opens, if_true] at hone
        split_ifs at hone
        rw [← Option.some.inj hone]
        rfl
      | drop conn place =>
        simp only [Pool.step] at hone
        split at hone
        · cases hone
        · cases hone
      | spurious call => exact hmove.elim
    · exact ih _ hmore answer hrest

end

/-- **Nobody waits for ever.** From wherever a run has led, also after opens that failed and told nobody, there is a way on
that starts no call and in which no open fails, that answers every call under way exactly once, each with a connection. -/
theorem pool_never_stuck (parallelism : Option ℕ) (moves : List Move) :
    let s := (Pool.start parallelism).run moves
    ∃ more : List Move, (∀ move ∈ more, move.Finishes) ∧ (s.run more).calls = [] ∧
      ((s.answers more).map (·.1)).Perm s.calls ∧ ∀ answer ∈ s.answers more, answer.2.isSome = true := by
  intro s
  have hall : ∀ (n : ℕ) (bound : ℕ) (s : Pool), s.Sound bound → s.calls.length = n →
      ∃ more : List Move, (∀ move ∈ more, move.Finishes) ∧ (s.run more).calls = [] := by
    intro n bound
    induction n using Nat.strongRecOn with
    | _ n ih =>
      intro s h hn
      by_cases hcalls : s.calls = []
      · exact ⟨[], by simp, hcalls⟩
      · obtain ⟨first, hfirst, hfewer⟩ := h.serves _ rfl hcalls
        obtain ⟨rest, hrest, hdone⟩ := ih _ (hn ▸ hfewer) _ (h.run first) rfl
        refine ⟨first ++ rest, ?_, ?_⟩
        · intro move hmove
          rcases List.mem_append.1 hmove with hin | hin
          · exact hfirst move hin
          · exact hrest move hin
        · rw [Pool.run, List.foldl_append]
          exact hdone
  obtain ⟨more, hmore, hdone⟩ := hall _ _ s ((sound_start parallelism).run moves) rfl
  refine ⟨more, hmore, hdone, ?_, Pool.answers_some more s hmore⟩
  have hcalls := Pool.run_calls more s
  have hnone : more.filterMap Move.starts = [] := by
    rw [List.filterMap_eq_nil_iff]
    exact fun move hmove => (hmore move hmove).starts_nil
  rwa [hdone, hnone, List.append_nil, List.nil_append] at hcalls

end Hocmesh.Coordinator.Pooling
