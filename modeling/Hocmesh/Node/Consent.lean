/-
The consent a running daemon enforces and the consent it advertises (`daemon.rs`, `control.rs`).

The pool is built once, from the capabilities the daemon starts with. A limits change replaces the capabilities that later
heartbeats publish, and is answered with whether a restart is needed; that answer is read off the number of workers alone.
`consent_enforced` says of which runs the answer can be trusted, `shrunkMemory` is a change it is wrong about.
-/
import Hocmesh.Base.Along
import Hocmesh.Core.Limits

namespace Hocmesh.Node

open Hocmesh.Base Hocmesh.Core

/-! ## The daemon -/

structure Daemon where
  /-- the hardware, whole -/
  detected : NodeCapabilities
  runtimeAvailable : Bool
  /-- that were spawned at the start -/
  workers : ℕ
  limitsFile : LimitsFile
  /-- what the next heartbeat publishes, but for its own measurements -/
  capabilities : NodeCapabilities
  pool : ResourcePool
  /-- `restart_required`, as the last change of limits was answered -/
  answered : Option Bool

/-- the daemon command: read the limits, advertise the shares, build the pool from what is advertised -/
def Daemon.start (detected : NodeCapabilities) (runtimeAvailable : Bool) (file : LimitsFile) (requested : Option ℕ) :
    Except String Daemon := do
  let limits ← file.load
  let caps := advertisedCapabilities detected limits runtimeAvailable
  let workers := limits.clampRequestedWorkers requested caps.logicalCpus
  return {
    detected := detected
    runtimeAvailable := runtimeAvailable
    workers := max workers 1
    limitsFile := file
    capabilities := caps
    pool := .new (fromCapabilities caps)
    answered := none }

structure LimitsUpdate where
  limits : ResourceLimits
  capabilities : NodeCapabilities
  restartRequired : Bool

/-- a status and a text -/
abbrev ApiError := ℕ × String

namespace Daemon

variable (d : Daemon)

/-- `set_limits_handler`; `saved` is how the write to the file ends, and what a write that failed has left there -/
def setLimits (request : LimitsRequest) (saved : Except (String × LimitsFile) Unit) :
    Except ApiError LimitsUpdate × Daemon :=
  match d.limitsFile.load with
  | .error error => (.error (500, error), d)
  | .ok stored =>
    let limits := request.applyTo stored
    match limits.validate with
    | .error error => (.error (400, error), d)
    | .ok () =>
      match saved with
      | .error (error, left) => (.error (500, error), { d with limitsFile := left })
      | .ok () =>
        let caps := advertisedCapabilities d.detected limits d.runtimeAvailable
        let restartRequired := decide (caps.sharedLogicalCpus ≠ d.workers)
        (.ok ⟨limits, caps, restartRequired⟩,
          { d with limitsFile := .holds limits, capabilities := caps, answered := some restartRequired })

/-- a tick of the heartbeat: what it measured is folded in, and the result is what it publishes -/
def heartbeat (measured : ℕ) : Daemon :=
  { d with capabilities :=
      { d.capabilities with modelBandwidthKbps := measured, loadPermille := d.pool.loadPermille } }

/-- what the next heartbeat publishes -/
def publishes (measured : ℕ) : NodeCapabilities := (d.heartbeat measured).capabilities

end Daemon

inductive Daemon.Act where
  | setLimits (request : LimitsRequest) (saved : Except (String × LimitsFile) Unit)
  | claim (claim : Amounts)
  | drop (lease : ℕ)
  | heartbeat (measured : ℕ)
  | place (coordinate : Option NetworkCoordinate)

def Daemon.step (d : Daemon) : Daemon.Act → Daemon
  | .setLimits request saved => (d.setLimits request saved).2
  | .claim claim => { d with pool := (d.pool.tryClaim claim).2 }
  | .drop lease => { d with pool := d.pool.release lease }
  | .heartbeat measured => d.heartbeat measured
  | .place coordinate => { d with capabilities := { d.capabilities with networkCoordinate := coordinate } }

def Daemon.run (d : Daemon) (acts : List Daemon.Act) : Daemon := acts.foldl Daemon.step d

/-! ## What a change of limits does -/

/-- the limits a request asks for, when there are limits to change and it does not ask for too much -/
def Daemon.asked (d : Daemon) (request : LimitsRequest) : Option ResourceLimits :=
  match d.limitsFile.load with
  | .error _ => none
  | .ok stored =>
    match (request.applyTo stored).validate with
    | .error _ => none
    | .ok () => some (request.applyTo stored)

/-- a change fails and changes nothing but the file, or the limits asked for are what is advertised from then on -/
theorem setLimits_cases (d : Daemon) (request : LimitsRequest) (saved : Except (String × LimitsFile) Unit) :
    ((saved = .ok () → d.asked request = none) ∧
        ∃ error file, d.setLimits request saved = (.error error, { d with limitsFile := file })) ∨
      saved = .ok () ∧ ∃ limits, d.asked request = some limits ∧
        let caps := advertisedCapabilities d.detected limits d.runtimeAvailable
        let restartRequired := decide (limits.effectiveWorkers d.detected.logicalCpus ≠ d.workers)
        d.setLimits request saved = (.ok ⟨limits, caps, restartRequired⟩,
          { d with limitsFile := .holds limits, capabilities := caps, answered := some restartRequired }) := by
  unfold Daemon.setLimits Daemon.asked
  cases hload : d.limitsFile.load with
  | error error => exact .inl ⟨fun _ => rfl, _, d.limitsFile, rfl⟩
  | ok stored =>
    dsimp only
    cases hvalid : (request.applyTo stored).validate with
    | error error => exact .inl ⟨fun _ => rfl, _, d.limitsFile, rfl⟩
    | ok _ =>
      cases saved with
      | error failure => exact .inl ⟨nofun, _, failure.2, rfl⟩
      | ok _ => exact .inr ⟨rfl, _, rfl, rfl⟩

/-! ## Enforced and advertised -/

/-- an answer that no restart is needed is right, and the live leases are within what is lent -/
structure Enforced (d : Daemon) : Prop where
  advertised : d.answered = some false → ∀ measured, fromCapabilities (d.publishes measured) = d.pool.lent
  within : ∀ axis, d.pool.claimed axis ≤ d.pool.lent axis

/-- the answer to a change is right, for a daemon started with these limits, and no count of the pool wraps -/
def Confirms (started : ResourceLimits) (d : Daemon) : Daemon.Act → Prop
  | .setLimits request saved => saved = .ok () → ∀ limits ∈ d.asked request,
      limits.effectiveWorkers d.detected.logicalCpus = d.workers → budget d.detected limits = budget d.detected started
  | .claim claim => d.pool.impossible claim = false → ∀ axis, d.pool.held axis + claim axis < 2 ^ 64
  | _ => True

/-- what a run keeps -/
structure Kept (started : ResourceLimits) (d : Daemon) : Prop where
  lent : d.pool.lent = budget d.detected started
  advertised : d.answered = some false → fromCapabilities d.capabilities = budget d.detected started
  exact : d.pool.Exact

section

variable {started : ResourceLimits} {d : Daemon}

theorem kept_start {detected : NodeCapabilities} {runtimeAvailable : Bool} {file : LimitsFile} {requested : Option ℕ}
    (hload : file.load = .ok started) (hstart : Daemon.start detected runtimeAvailable file requested = .ok d) :
    Kept started d := by
  simp only [Daemon.start, hload, bind, Except.bind, pure, Except.pure, Except.ok.injEq] at hstart
  subst hstart
  exact ⟨fromCapabilities_advertised detected started runtimeAvailable, nofun, ResourcePool.exact_new _⟩

theorem Kept.enforced (h : Kept started d) : Enforced d where
  advertised hanswered _ := (h.advertised hanswered).trans h.lent.symm
  within axis := (h.exact.held_eq axis).symm ▸ h.exact.within axis

theorem Kept.setLimits (h : Kept started d) {request : LimitsRequest} {saved : Except (String × LimitsFile) Unit}
    (hconfirms : Confirms started d (.setLimits request saved)) : Kept started (d.setLimits request saved).2 := by
  rcases setLimits_cases d request saved with ⟨-, error, file, hset⟩ | ⟨hsaved, limits, hasked, hset⟩
  · rw [hset]
    exact ⟨h.lent, h.advertised, h.exact⟩
  · rw [hset]
    refine ⟨h.lent, fun hanswered => ?_, h.exact⟩
    have hworkers : limits.effectiveWorkers d.detected.logicalCpus = d.workers := by
      simpa using hanswered
    show fromCapabilities (advertisedCapabilities d.detected limits d.runtimeAvailable) = budget d.detected started
    rw [fromCapabilities_advertised]
    exact hconfirms hsaved limits hasked hworkers

/-- a change is answered rightly just when the limits asked for change the workers or mean the same shares -/
theorem Kept.setLimits_enforced_iff (h : Kept started d) (request : LimitsRequest)
    (saved : Except (String × LimitsFile) Unit) :
    Enforced (d.setLimits request saved).2 ↔ Confirms started d (.setLimits request saved) := by
  refine ⟨fun henforced hsaved limits hlimits hworkers => ?_, fun hconfirms => (h.setLimits hconfirms).enforced⟩
  rcases setLimits_cases d request saved with ⟨hrefused, -⟩ | ⟨-, limits', hasked, hset⟩
  · rw [hrefused hsaved] at hlimits
    cases hlimits
  · obtain rfl : limits' = limits := Option.some.inj (hasked.symm.trans hlimits)
    rw [hset] at henforced
    have hright := henforced.advertised (by simpa using hworkers) 0
    have hlent : fromCapabilities (advertisedCapabilities d.detected limits' d.runtimeAvailable) = d.pool.lent := hright
    rw [fromCapabilities_advertised] at hlent
    exact hlent.trans h.lent

theorem Kept.step (h : Kept started d) {act : Daemon.Act} (hconfirms : Confirms started d act) : Kept started (d.step act) := by
  cases act with
  | setLimits request saved => exact h.setLimits hconfirms
  | claim claim => exact ⟨(tryClaim_lent d.pool claim).trans h.lent, h.advertised, h.exact.tryClaim hconfirms⟩
  | drop lease => exact ⟨(release_lent d.pool lease).trans h.lent, h.advertised, h.exact.release lease⟩
  | heartbeat measured => exact ⟨h.lent, h.advertised, h.exact⟩
  | place coordinate => exact ⟨h.lent, h.advertised, h.exact⟩

theorem Kept.run (h : Kept started d) {acts : List Daemon.Act} (hconfirms : Along Daemon.step (Confirms started) d acts) :
    Kept started (d.run acts) :=
  Along.invariant (fun d _ => Kept started d) (fun _ _ _ h hact => h.step hact) acts d [] hconfirms h

/-- **The consent enforced.** In a run whose limits changes keep every share when they keep the number of workers, an answer
that no restart is needed is right; and leases stay within what is lent. -/
theorem consent_enforced {detected : NodeCapabilities} {runtimeAvailable : Bool} {file : LimitsFile}
    {requested : Option ℕ} (hload : file.load = .ok started)
    (hstart : Daemon.start detected runtimeAvailable file requested = .ok d) (acts : List Daemon.Act)
    (hconfirms : Along Daemon.step (Confirms started) d acts) : Enforced (d.run acts) :=
  ((kept_start hload hstart).run hconfirms).enforced

end

/-! ## A change that is answered wrongly -/

namespace EightCpus

/-- eight CPUs, 16 GB, and a card of 8 GiB -/
def detected : NodeCapabilities where
  cpuBrand := "cpu"
  logicalCpus := 8
  totalMemoryBytes := 16000000000
  gpus := [⟨"gpu-0", "card", "cuda", some 8192⟩]
  modelBandwidthKbps := 0
  loadPermille := 0
  aiRuntimeReady := false
  sharedLogicalCpus := 0
  sharedMemoryBytes := 0
  sharedGpuPercent := 0
  networkCoordinate := none

/-- started with no limits on file -/
def daemon : Daemon where
  detected := detected
  runtimeAvailable := true
  workers := 4
  limitsFile := .absent
  capabilities := advertisedCapabilities detected .default true
  pool := .new (fromCapabilities (advertisedCapabilities detected .default true))
  answered := none

theorem daemon_start : Daemon.start detected true .absent none = .ok daemon := rfl

/-- half the memory is lent, and the operator makes it a quarter -/
def quarter : LimitsRequest := ⟨none, none, some 25, none⟩

/-- a little more of the CPUs, and as many workers -/
def littleMore : LimitsRequest := ⟨some 55, none, none, none⟩

/-- some work that takes two workers -/
def work : Amounts
  | .logicalCpus => 2
  | .memoryBytes => 1000000000
  | .deviceMemoryBytes => 0

/-- the memory lent is halved, no restart is asked for, and the pool still hands out all of it -/
theorem shrunkMemory : ¬ Enforced (daemon.run [.setLimits quarter (.ok ())]) := by
  intro h
  have := congrFun (h.advertised (by decide) 0) .memoryBytes
  revert this
  decide

theorem littleMore_enforced :
    Enforced (daemon.run [.claim work, .setLimits littleMore (.ok ()), .heartbeat 900, .claim work, .drop 0]) := by
  have hmeans : budget detected ⟨55, 0, 50, none⟩ = budget detected .default :=
    funext fun axis => by cases axis <;> rfl
  have hload : LimitsFile.absent.load = .ok .default := rfl
  refine consent_enforced hload daemon_start _ ⟨fun _ => by decide, ?_, trivial, fun _ => by decide, trivial, trivial⟩
  rintro - limits ⟨⟩ -
  exact hmeans

end EightCpus

end Hocmesh.Node
