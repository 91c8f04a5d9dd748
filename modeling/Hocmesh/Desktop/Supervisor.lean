/-
One app and the daemons it starts for one home (`hocmesh-desktop/src/supervisor.rs`, `hocmesh-node/src/control.rs`).

The app knows of a daemon by the endpoint file, which a daemon writes some time after it was started and removes before it is
gone, and by the one child handle it holds. A `stop` waits for the daemon's answer, so the daemons go on in the middle of it.
`one_daemon_per_home`: what the module's rules promise holds in every run in which no daemon is started while one is alive that
no file shows, and no `stop` comes back without having reached a daemon that is still needed. `Careful` is that condition, step
by step.
-/
import Hocmesh.Base.Along
import Hocmesh.Base.Check
import Mathlib.Logic.Function.Basic

namespace Hocmesh.Desktop

open Hocmesh.Base

/-! ## What the app and the daemons share -/

/-- the endpoint file -/
structure ControlEndpoint where
  port : ℕ
  token : String
  pid : ℕ
  version : String
  startedUnix : ℤ

inductive Ownership where
  | supervised
  | attached

inductive RunState where
  | stopped
  | running (ownership : Ownership) (pid port : ℕ) (version : String)

/-- a daemon's life: its endpoint is not written yet, is written, is still there after the servers have stopped, is removed; or
the process has ended, at the end or anywhere on the way -/
inductive Phase where
  | starting
  | serving (endpoint : ControlEndpoint)
  | closing
  | withdrawn
  | gone

structure Daemon where
  phase : Phase
  /-- a shutdown request has reached it -/
  asked : Bool

/-- the handle of a process the app has started -/
structure Child where
  daemon : ℕ
  id : ℕ

/-- a `stop` under way: it has read the endpoint, or it knows how its request went -/
inductive StopCall where
  | idle
  | sending (endpoint : ControlEndpoint)
  | reached
  | unreachable

/-- the daemons in the order they were started, the endpoint file, the `Supervisor` and its call under way -/
structure World where
  spawned : ℕ
  daemons : ℕ → Daemon
  file : Option ControlEndpoint
  child : Option Child
  stopCall : StopCall

def packageVersion : String := "0.5.1"

namespace Phase

/-- the process runs -/
def alive : Phase → Bool
  | .gone => false
  | _ => true

/-- the endpoint is written and not removed again -/
def published : Phase → Bool
  | .serving _ | .closing => true
  | _ => false

def listensOn (port : ℕ) : Phase → Bool
  | .serving endpoint => endpoint.port = port
  | _ => false

end Phase

namespace World

def initial : World := ⟨0, fun _ => ⟨.gone, false⟩, none, none, .idle⟩

variable (w : World)

def setPhase (d : ℕ) (phase : Phase) : World :=
  { w with daemons := Function.update w.daemons d { w.daemons d with phase } }

/-! ## The supervisor -/

/-- `supervised_child_alive`; `try_wait` fails on a handle that is not usable -/
def supervisedChildAlive (usable : Bool) : Bool × World :=
  match w.child with
  | none => (false, w)
  | some child =>
    if usable && (w.daemons child.daemon).phase.alive then (true, w) else (false, { w with child := none })

def state (usable : Bool) : RunState × World :=
  let (supervised, w) := w.supervisedChildAlive usable
  match w.file with
  | some endpoint =>
    (.running (if supervised then .supervised else .attached) endpoint.pid endpoint.port endpoint.version, w)
  | none => (.stopped, w)

/-- one more daemon, and its handle in the place of the one before -/
def spawn (pid : ℕ) : World :=
  { w with
    spawned := w.spawned + 1, daemons := Function.update w.daemons w.spawned ⟨.starting, false⟩
    child := some ⟨w.spawned, pid⟩ }

/-- `start`; launching the binary gives a process id, or fails -/
def start (launch : Check ℕ) (usable : Bool) : Check RunState × World :=
  match w.state usable with
  | (.running ownership pid port version, w) => (.ok (.running ownership pid port version), w)
  | (.stopped, w) =>
    match launch with
    | .error e => (.error e, w)
    | .ok pid => (.ok (.running .supervised pid 0 packageVersion), w.spawn pid)

def shouldStopOnQuit (usable : Bool) : Bool × World :=
  match w.state usable with
  | (.running .supervised _ _ _, w) => (true, w)
  | (_, w) => (false, w)

/-- `stop` up to its request; without a file it is done -/
def beginStop : Option (Check Bool) × World :=
  match w.file with
  | none => (some (.ok false), { w with child := none })
  | some endpoint => (none, { w with stopCall := .sending endpoint })

def listener (port : ℕ) : Option ℕ := (List.range w.spawned).find? fun d => (w.daemons d).phase.listensOn port

/-- the request of a `stop` arrives, and a status comes back or nothing does; a stranger on the port refuses it -/
def deliver (status : Option String) : Option (Check Bool) × World :=
  match w.stopCall with
  | .sending endpoint =>
    let refused : Option (Check Bool) × World :=
      match status with
      | some s => (some (.error ("daemon refused the shutdown request: " ++ s)), { w with stopCall := .idle })
      | none => (none, { w with stopCall := .unreachable })
    match w.listener endpoint.port with
    | none => refused
    | some d =>
      match (w.daemons d).phase with
      | .serving own =>
        if own.token = endpoint.token then
          (none, { w with
            daemons := Function.update w.daemons d { w.daemons d with asked := true }
            stopCall := if status.isSome then .reached else .unreachable })
        else refused
      | _ => refused
  | _ => (none, w)

/-- the rest of `stop` -/
def finishStop : Option (Check Bool) × World :=
  match w.stopCall with
  | .reached => (some (.ok true), { w with child := none, stopCall := .idle })
  | .unreachable => (some (.ok false), { w with file := none, child := none, stopCall := .idle })
  | _ => (none, w)

end World

/-! ## Steps -/

/-- what happens next: a call of the app, the next part of a `stop`, or a daemon's step -/
inductive Move where
  | start (launch : Check ℕ) (usable : Bool)
  | state (usable : Bool)
  | shouldStopOnQuit (usable : Bool)
  | stop
  | deliver (status : Option String)
  | finishStop
  | publish (d : ℕ) (endpoint : ControlEndpoint)
  | close (d : ℕ)
  | withdraw (d : ℕ)
  | exit (d : ℕ)

/-- a call of the app waits for the `stop` before it -/
def World.call (w : World) (f : World → World) : World :=
  match w.stopCall with
  | .idle => f w
  | _ => w

def step (w : World) : Move → World
  | .start launch usable => w.call fun w => (w.start launch usable).2
  | .state usable => w.call fun w => (w.state usable).2
  | .shouldStopOnQuit usable => w.call fun w => (w.shouldStopOnQuit usable).2
  | .stop => w.call fun w => w.beginStop.2
  | .deliver status => (w.deliver status).2
  | .finishStop => w.finishStop.2
  | .publish d endpoint =>
    match (w.daemons d).phase with
    | .starting => { w.setPhase d (.serving endpoint) with file := some endpoint }
    | _ => w
  | .close d =>
    match (w.daemons d).phase with
    | .serving _ => w.setPhase d .closing
    | _ => w
  | .withdraw d =>
    match (w.daemons d).phase with
    | .closing => { w.setPhase d .withdrawn with file := none }
    | _ => w
  | .exit d => w.setPhase d .gone

def run (moves : List Move) : World := moves.foldl step .initial

/-! ## What the rules promise -/

/-- alive, not asked to stop, and not at the end of a shutdown of its own -/
def World.Needed (w : World) (d : ℕ) : Prop :=
  (w.daemons d).asked = false ∧ ((w.daemons d).phase = .starting ∨ (w.daemons d).phase.published = true)

def World.Settled (w : World) : Prop := ∀ d, ¬ w.Needed d

/-- at most one daemon is alive, and one that was not asked to stop is stopped on quitting once its endpoint is written -/
structure World.Governed (w : World) : Prop where
  one : ∀ i j, (w.daemons i).phase.alive = true → (w.daemons j).phase.alive = true → i = j
  quits : ∀ d, (w.daemons d).asked = false → (w.daemons d).phase.published = true → (w.shouldStopOnQuit true).1 = true

/-- Nothing is started while a daemon is alive that no file shows. Nothing is given up while a daemon is needed: by a `stop` that
finds no file or reaches nobody, or with a handle that is not usable. -/
def Careful (w : World) : Move → Prop
  | .start launch usable => w.stopCall = .idle → (usable = true ∨ w.Settled) ∧
      (w.file = none → (∃ pid, launch = .ok pid) → ∀ d, (w.daemons d).phase.alive = false)
  | .state usable | .shouldStopOnQuit usable => w.stopCall = .idle → usable = true ∨ w.Settled
  | .stop => w.stopCall = .idle → w.file = none → w.Settled
  | .finishStop => w.stopCall = .unreachable → w.Settled
  | _ => True

/-! ## The invariant -/

/-- one daemon at most; the handle of the one that is needed, and its file once it is written; a `stop` that got through leaves
nothing needed -/
structure World.Inv (w : World) : Prop where
  one : ∀ i j, (w.daemons i).phase.alive = true → (w.daemons j).phase.alive = true → i = j
  held : ∀ d, w.Needed d → ∃ child, w.child = some child ∧ child.daemon = d
  filed : ∀ d, w.Needed d → (w.daemons d).phase.published = true → w.file.isSome = true
  reached : w.stopCall = .reached → w.Settled

section

variable {w w' : World}

theorem Phase.alive_of_published {phase : Phase} (h : phase.published = true) : phase.alive = true := by
  cases phase with
  | serving endpoint => rfl
  | closing => rfl
  | _ => cases h

theorem World.Needed.alive {d : ℕ} (h : w.Needed d) : (w.daemons d).phase.alive = true := by
  obtain ⟨-, hstarting | hpublished⟩ := h
  · rw [hstarting]
    rfl
  · exact Phase.alive_of_published hpublished

theorem World.settled_of_gone (h : ∀ d, (w.daemons d).phase.alive = false) : w.Settled := by
  intro d hd
  exact Bool.false_ne_true ((h d).symm.trans hd.alive)

theorem World.inv_initial : World.initial.Inv where
  one i j hi _ := absurd hi Bool.false_ne_true
  held d hd := absurd hd.alive Bool.false_ne_true
  filed d hd _ := absurd hd.alive Bool.false_ne_true
  reached h := by cases h

/-- the invariant keeps the rules -/
theorem World.Inv.governed (h : w.Inv) : w.Governed where
  one := h.one
  quits d hasked hpublished := by
    have hneeded : w.Needed d := ⟨hasked, Or.inr hpublished⟩
    obtain ⟨child, hchild, rfl⟩ := h.held d hneeded
    obtain ⟨endpoint, hfile⟩ := Option.isSome_iff_exists.1 (h.filed _ hneeded hpublished)
    have halive : w.supervisedChildAlive true = (true, w) := by
      rw [supervisedChildAlive, hchild]
      dsimp only
      rw [Bool.true_and, if_pos hneeded.alive]
    rw [shouldStopOnQuit, state, halive]
    dsimp only
    rw [hfile]
    rfl

/-- a step after which no more daemons are alive or needed, with the handle kept -/
theorem World.Inv.of_fewer (h : w.Inv) (halive : ∀ d, (w'.daemons d).phase.alive = true → (w.daemons d).phase.alive = true)
    (hneeded : ∀ d, w'.Needed d → w.Needed d) (hchild : w'.child = w.child)
    (hfiled : ∀ d, w'.Needed d → (w'.daemons d).phase.published = true → w'.file.isSome = true)
    (hreached : w'.stopCall = .reached → w'.Settled) : w'.Inv where
  one i j hi hj := h.one i j (halive i hi) (halive j hj)
  held d hd := hchild ▸ h.held d (hneeded d hd)
  filed := hfiled
  reached := hreached

/-- giving up what is not needed -/
theorem World.Inv.of_settled (h : w.Inv) (hsettled : w.Settled) (hdaemons : w'.daemons = w.daemons) : w'.Inv := by
  have hnone : w'.Settled := by
    intro d hd
    rw [Needed, hdaemons] at hd
    exact hsettled d hd
  exact ⟨fun i j hi hj => h.one i j (hdaemons ▸ hi) (hdaemons ▸ hj), fun d hd => absurd hd (hnone d),
    fun d hd => absurd hd (hnone d), fun _ => hnone⟩

/-! ### The app -/

/-- what is reaped is not needed -/
theorem World.supervisedChildAlive_cases (h : w.Inv) {usable : Bool} (husable : usable = true ∨ w.Settled) :
    (w.supervisedChildAlive usable).2 = w ∨
      w.Settled ∧ (w.supervisedChildAlive usable).2 = { w with child := none } := by
  unfold supervisedChildAlive
  cases hchild : w.child with
  | none => exact Or.inl rfl
  | some child =>
    by_cases hup : (usable && (w.daemons child.daemon).phase.alive) = true
    · exact Or.inl (by dsimp only; rw [if_pos hup])
    · refine Or.inr ⟨?_, by dsimp only; rw [if_neg hup]⟩
      obtain rfl | hsettled := husable
      · intro d hd
        obtain ⟨child', hchild', rfl⟩ := h.held d hd
        obtain rfl := Option.some.inj (hchild.symm.trans hchild')
        exact hup hd.alive
      · exact hsettled

@[simp] theorem World.file_reaped (usable : Bool) : (w.supervisedChildAlive usable).2.file = w.file := by
  unfold supervisedChildAlive
  cases w.child with
  | none => rfl
  | some child => dsimp only; split_ifs <;> rfl

@[simp] theorem World.stopCall_reaped (usable : Bool) : (w.supervisedChildAlive usable).2.stopCall = w.stopCall := by
  unfold supervisedChildAlive
  cases w.child with
  | none => rfl
  | some child => dsimp only; split_ifs <;> rfl

@[simp] theorem World.daemons_reaped (usable : Bool) : (w.supervisedChildAlive usable).2.daemons = w.daemons := by
  unfold supervisedChildAlive
  cases w.child with
  | none => rfl
  | some child => dsimp only; split_ifs <;> rfl

theorem World.Inv.reap (h : w.Inv) {usable : Bool} (husable : usable = true ∨ w.Settled) :
    (w.supervisedChildAlive usable).2.Inv := by
  obtain hkept | ⟨hsettled, hgiven⟩ := World.supervisedChildAlive_cases h husable
  · rw [hkept]
    exact h
  · rw [hgiven]
    exact h.of_settled hsettled rfl

theorem World.state_eq (usable : Bool) : w.state usable =
    (match w.file with
      | some endpoint =>
        .running (if (w.supervisedChildAlive usable).1 then .supervised else .attached) endpoint.pid endpoint.port
          endpoint.version
      | none => .stopped, (w.supervisedChildAlive usable).2) := by
  rw [state, ← w.file_reaped usable]
  dsimp only
  cases (w.supervisedChildAlive usable).2.file <;> rfl

/-- a daemon is started only where no file is -/
theorem World.start_snd (launch : Check ℕ) (usable : Bool) :
    (w.start launch usable).2 = (w.supervisedChildAlive usable).2 ∨
      ∃ pid, w.file = none ∧ launch = .ok pid ∧ (w.start launch usable).2 = (w.supervisedChildAlive usable).2.spawn pid := by
  rw [start, World.state_eq]
  cases w.file with
  | some endpoint => exact Or.inl rfl
  | none =>
    cases launch with
    | error e => exact Or.inl rfl
    | ok pid => exact Or.inr ⟨pid, rfl, rfl, rfl⟩

theorem World.shouldStopOnQuit_snd (usable : Bool) : (w.shouldStopOnQuit usable).2 = (w.supervisedChildAlive usable).2 := by
  rw [shouldStopOnQuit, World.state_eq]
  cases w.file with
  | none => rfl
  | some endpoint => cases (w.supervisedChildAlive usable).1 <;> rfl

/-- the first daemon of a world in which none is alive -/
theorem World.inv_spawn (hgone : ∀ d, (w.daemons d).phase.alive = false) (hidle : w.stopCall = .idle) (pid : ℕ) :
    (w.spawn pid).Inv := by
  have hself : (w.spawn pid).daemons w.spawned = ⟨.starting, false⟩ := Function.update_self ..
  have honly : ∀ d, ((w.spawn pid).daemons d).phase.alive = true → d = w.spawned := by
    intro d hd
    by_contra hne
    rw [show (w.spawn pid).daemons d = w.daemons d from Function.update_of_ne hne .., hgone d] at hd
    exact Bool.false_ne_true hd
  refine ⟨fun i j hi hj => (honly i hi).trans (honly j hj).symm, fun d hd => ⟨_, rfl, (honly d hd.alive).symm⟩, ?_, ?_⟩
  · intro d hd hpublished
    rw [honly d hd.alive, hself] at hpublished
    cases hpublished
  · intro hreached
    cases hidle.symm.trans hreached

theorem World.Inv.start (h : w.Inv) {launch : Check ℕ} {usable : Bool} (hidle : w.stopCall = .idle)
    (hcareful : Careful w (.start launch usable)) : (w.start launch usable).2.Inv := by
  obtain ⟨husable, hgone⟩ := hcareful hidle
  have hreaped := h.reap husable
  obtain hsame | ⟨pid, hfile, hlaunch, hspawned⟩ := World.start_snd (w := w) launch usable
  · rw [hsame]
    exact hreaped
  · rw [hspawned]
    refine World.inv_spawn ?_ ((w.stopCall_reaped usable).trans hidle) pid
    rw [World.daemons_reaped]
    exact hgone hfile ⟨pid, hlaunch⟩

theorem World.Inv.beginStop (h : w.Inv) (hcareful : w.file = none → w.Settled) : w.beginStop.2.Inv := by
  unfold World.beginStop
  cases hfile : w.file with
  | none => exact h.of_settled (hcareful hfile) rfl
  | some endpoint => exact h.of_fewer (fun _ => id) (fun _ => id) rfl (fun _ _ _ => rfl) fun hreached => by cases hreached

theorem World.alive_listener {port d : ℕ} (hd : w.listener port = some d) : (w.daemons d).phase.alive = true := by
  have hlistens : (w.daemons d).phase.listensOn port = true := (List.find?_eq_some_iff_append.1 hd).1
  cases hphase : (w.daemons d).phase with
  | serving endpoint => rfl
  | _ =>
    rw [hphase] at hlistens
    cases hlistens

/-- a daemon that a `stop` reaches is the only one alive, and is asked then -/
theorem World.Inv.ask (h : w.Inv) {d : ℕ} (hd : (w.daemons d).phase.alive = true) (stopCall : StopCall) :
    World.Inv { w with daemons := Function.update w.daemons d { w.daemons d with asked := true }, stopCall := stopCall } := by
  have halive : ∀ i, (Function.update w.daemons d { w.daemons d with asked := true } i).phase.alive = true →
      (w.daemons i).phase.alive = true := by
    intro i hi
    by_cases heq : i = d
    · exact heq ▸ hd
    · rwa [Function.update_of_ne heq] at hi
  have hsettled : World.Settled
      { w with daemons := Function.update w.daemons d { w.daemons d with asked := true }, stopCall := stopCall } := by
    intro i hi
    obtain rfl : i = d := h.one i d (halive i hi.alive) hd
    have hasked := hi.1
    rw [show (Function.update w.daemons i { w.daemons i with asked := true } i).asked = true by rw [Function.update_self]] at hasked
    cases hasked
  exact h.of_fewer halive (fun i hi => absurd hi (hsettled i)) rfl (fun i hi => absurd hi (hsettled i)) fun _ => hsettled

theorem World.Inv.deliver (h : w.Inv) (status : Option String) : (w.deliver status).2.Inv := by
  have hrefused : ∀ call, call ≠ .reached → World.Inv { w with stopCall := call } := fun call hcall =>
    h.of_fewer (fun _ => id) (fun _ => id) rfl h.filed fun hreached => absurd hreached hcall
  unfold World.deliver
  split
  · next endpoint hsending =>
    have hstatus : World.Inv (match status with
        | some s => (some (.error ("daemon refused the shutdown request: " ++ s)), { w with stopCall := .idle })
        | none => (none, { w with stopCall := .unreachable }) : Option (Check Bool) × World).2 := by
      cases status with
      | some s => exact hrefused .idle nofun
      | none => exact hrefused .unreachable nofun
    dsimp only
    split
    · exact hstatus
    · next d hd =>
      split
      · next own hown =>
        by_cases htoken : own.token = endpoint.token
        · rw [if_pos htoken]
          exact h.ask (World.alive_listener hd) _
        · rw [if_neg htoken]
          exact hstatus
      · exact hstatus
  · exact h

theorem World.Inv.finishStop (h : w.Inv) (hcareful : w.stopCall = .unreachable → w.Settled) : w.finishStop.2.Inv := by
  unfold World.finishStop
  split
  · next hreached => exact h.of_settled (h.reached hreached) rfl
  · next hunreachable => exact h.of_settled (hcareful hunreachable) rfl
  · exact h

/-! ### The daemons -/

/-- a daemon goes on to a phase in which it is needed only if it was -/
theorem World.Inv.setPhase (h : w.Inv) {d : ℕ} {phase : Phase} {file : Option ControlEndpoint}
    (halive : phase.alive = true → (w.daemons d).phase.alive = true)
    (hneeded : phase.published = true → (w.daemons d).phase = .starting ∨ (w.daemons d).phase.published = true)
    (hstarting : phase ≠ .starting) (hother : ∀ i, i ≠ d → (w.daemons i).phase.alive = true → w.file = file)
    (hfiled : w.Needed d → phase.published = true → file.isSome = true) : World.Inv { w.setPhase d phase with file := file } := by
  have hself : (w.setPhase d phase).daemons d = { w.daemons d with phase := phase } := Function.update_self ..
  have hne : ∀ i, i ≠ d → (w.setPhase d phase).daemons i = w.daemons i := fun i hi => Function.update_of_ne hi ..
  have hfewer : ∀ i, World.Needed { w.setPhase d phase with file := file } i → w.Needed i := by
    rintro i ⟨hasked, hphase⟩
    by_cases heq : i = d
    · subst heq
      rw [hself] at hasked hphase
      exact ⟨hasked, hneeded (hphase.resolve_left hstarting)⟩
    · rw [hne i heq] at hasked hphase
      exact ⟨hasked, hphase⟩
  refine h.of_fewer (fun i hi => ?_) hfewer rfl (fun i hi hpublished => ?_) fun hreached i hi => h.reached hreached i (hfewer i hi)
  · by_cases heq : i = d
    · subst heq
      rw [hself] at hi
      exact halive hi
    · rwa [hne i heq] at hi
  · by_cases heq : i = d
    · subst heq
      rw [hself] at hpublished
      exact hfiled (hfewer i hi) hpublished
    · rw [hne i heq] at hpublished
      have hthere := h.filed i (hfewer i hi) hpublished
      rwa [hother i heq (hfewer i hi).alive] at hthere

theorem World.Inv.call (h : w.Inv) {f : World → World} (hf : w.stopCall = .idle → (f w).Inv) : (w.call f).Inv := by
  unfold World.call
  split
  · next hidle => exact hf hidle
  · exact h

/-- **One step.** -/
theorem World.Inv.step (h : w.Inv) {m : Move} (hcareful : Careful w m) : (step w m).Inv := by
  cases m with
  | start launch usable =>
    show World.Inv (w.call fun w => (w.start launch usable).2)
    exact h.call fun hidle => h.start hidle hcareful
  | state usable =>
    show World.Inv (w.call fun w => (w.state usable).2)
    refine h.call fun hidle => ?_
    rw [World.state_eq]
    exact h.reap (hcareful hidle)
  | shouldStopOnQuit usable =>
    show World.Inv (w.call fun w => (w.shouldStopOnQuit usable).2)
    refine h.call fun hidle => ?_
    rw [World.shouldStopOnQuit_snd]
    exact h.reap (hcareful hidle)
  | stop =>
    show World.Inv (w.call fun w => w.beginStop.2)
    exact h.call fun hidle => h.beginStop (hcareful hidle)
  | deliver status => exact h.deliver status
  | finishStop => exact h.finishStop hcareful
  | publish d endpoint =>
    simp only [Desktop.step]
    split
    · next hphase =>
      have halive : (w.daemons d).phase.alive = true := by rw [hphase]; rfl
      exact h.setPhase (fun _ => halive) (fun _ => Or.inl hphase) nofun (fun i hi hup => absurd (h.one i d hup halive) hi)
        fun _ _ => rfl
    · exact h
  | close d =>
    simp only [Desktop.step]
    split
    · next endpoint hphase =>
      have hpublished : (w.daemons d).phase.published = true := by rw [hphase]; rfl
      exact h.setPhase (fun _ => Phase.alive_of_published hpublished) (fun _ => Or.inr hpublished) nofun (fun _ _ _ => rfl)
        fun hneeded _ => h.filed d hneeded hpublished
    · exact h
  | withdraw d =>
    simp only [Desktop.step]
    split
    · next hphase =>
      have halive : (w.daemons d).phase.alive = true := by rw [hphase]; rfl
      exact h.setPhase (fun _ => halive) nofun nofun (fun i hi hup => absurd (h.one i d hup halive) hi) nofun
    · exact h
  | exit d => exact h.setPhase nofun nofun nofun (fun _ _ _ => rfl) nofun

theorem World.Inv.run (h : w.Inv) {moves : List Move} (hcareful : Along Desktop.step Careful w moves) :
    (moves.foldl Desktop.step w).Inv := by
  induction moves generalizing w with
  | nil => exact h
  | cons m moves ih => exact ih (h.step hcareful.1) hcareful.2

end

/-- **One daemon for one home.** In a run of careful steps, whatever the app calls and however the daemons go on in between, at
most one daemon is alive in every state on the way, and one that was not asked to stop is stopped on quitting once its endpoint
is written. -/
theorem one_daemon_per_home (moves : List Move) (h : Along step Careful .initial moves) :
    ∀ earlier later, moves = earlier ++ later → (run earlier).Governed := by
  rintro earlier later rfl
  exact (World.inv_initial.run ((Along.append_iff _ earlier later).1 h).1).governed

def someEndpoint : ControlEndpoint := ⟨7788, "token", 4242, packageVersion, 1⟩

/-- a daemon is started, serves, is asked to stop and ends, and then another one is started -/
def restartMoves : List Move :=
  [.start (.ok 4242) true, .publish 0 someEndpoint, .stop, .deliver (some "202 Accepted"), .finishStop, .close 0, .withdraw 0,
    .exit 0, .start (.ok 4243) true]

theorem restarted_home : (run restartMoves).Governed := by
  refine one_daemon_per_home restartMoves ⟨fun _ => ⟨Or.inl rfl, fun _ _ _ => rfl⟩, trivial, fun _ hfile => (nomatch hfile),
    trivial, nofun, trivial, trivial, trivial, fun _ => ⟨Or.inl rfl, fun _ _ d => ?_⟩, trivial⟩ _ [] (List.append_nil _).symm
  cases d with
  | zero => rfl
  | succ d => rfl

/-- two starts before the first daemon has written its endpoint: both find no file, and two daemons are alive -/
theorem two_daemons : ¬ ∀ moves : List Move, (run moves).Governed := by
  intro h
  have hboth := (h [.start (.ok 4242) true, .start (.ok 4243) true]).one 0 1 (by decide) (by decide)
  exact absurd hboth (by decide)

/-- a `stop` before the endpoint is written gives the handle up, and the daemon that then serves is left alone on quitting -/
example : ¬ (run [.start (.ok 4242) true, .stop, .publish 0 someEndpoint]).Governed := by
  intro h
  exact absurd (h.quits 0 (by decide) (by decide)) (by decide)

end Hocmesh.Desktop
