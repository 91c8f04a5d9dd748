/-
What an operator consents to lend, and what the node advertises of it (`limits.rs`, `hardware.rs`).

The capabilities a node publishes are made from the hardware as detected and the operator's limits; the budget a pool is
built with is read back out of them. `fromCapabilities_advertised` says which budget that is: the shares of the limits,
whatever the runtime and the limits on inference do to the list of devices.
-/
import Hocmesh.Core.Proximity
import Hocmesh.Core.Resources

namespace Hocmesh.Core

/-! ## Limits -/

structure ResourceLimits where
  cpuPercent : ℕ
  gpuPercent : ℕ
  memoryPercent : ℕ
  /-- unsaid: inference is offered when a GPU is lent -/
  ai : Option Bool
deriving DecidableEq

namespace ResourceLimits

def default : ResourceLimits := ⟨50, 0, 50, none⟩

variable (limits : ResourceLimits)

def validate : Except String Unit := do
  if limits.cpuPercent = 0 ∨ 100 < limits.cpuPercent then
    throw s!"cpu_percent must be between 1 and 100 (got {limits.cpuPercent})"
  if 100 < limits.gpuPercent then
    throw s!"gpu_percent must be between 0 and 100 (got {limits.gpuPercent})"
  if limits.memoryPercent = 0 ∨ 100 < limits.memoryPercent then
    throw s!"memory_percent must be between 1 and 100 (got {limits.memoryPercent})"

def effectiveWorkers (logicalCpus : ℕ) : ℕ :=
  let cpus := max logicalCpus 1
  let share := cpus * limits.cpuPercent % 2 ^ 64 / 100
  min (max share 1) cpus

def sharedMemoryBytes (totalMemoryBytes : ℕ) : ℕ := totalMemoryBytes / 100 * limits.memoryPercent % 2 ^ 64

def offersGpu : Bool := 0 < limits.gpuPercent

def offersAi (acceleratorShared : Bool) : Bool := limits.ai.getD acceleratorShared

/-- an explicit request can only lower the ceiling -/
def clampRequestedWorkers (requested : Option ℕ) (logicalCpus : ℕ) : ℕ :=
  let allowed := limits.effectiveWorkers logicalCpus
  max ((requested.map fun w => min w allowed).getD allowed) 1

end ResourceLimits

/-- what is in `limits.json` -/
inductive LimitsFile where
  | absent
  | malformed (error : String)
  | holds (limits : ResourceLimits)

/-- `load_or_default` -/
def LimitsFile.load : LimitsFile → Except String ResourceLimits
  | absent => .ok .default
  | malformed error => .error error
  | holds limits => do
    limits.validate
    return limits

/-- the fields a request leaves out stay as they are -/
structure LimitsRequest where
  cpuPercent : Option ℕ
  gpuPercent : Option ℕ
  memoryPercent : Option ℕ
  ai : Option (Option Bool)

def LimitsRequest.applyTo (request : LimitsRequest) (limits : ResourceLimits) : ResourceLimits where
  cpuPercent := request.cpuPercent.getD limits.cpuPercent
  gpuPercent := request.gpuPercent.getD limits.gpuPercent
  memoryPercent := request.memoryPercent.getD limits.memoryPercent
  ai := request.ai.getD limits.ai

/-! ## What is advertised -/

structure GpuCapability where
  stableId : String
  name : String
  backend : String
  memoryMb : Option ℕ

/-- of `NodeCapabilities`, what the limits, the daemon and the pool write or read -/
structure NodeCapabilities where
  cpuBrand : String
  logicalCpus : ℕ
  totalMemoryBytes : ℕ
  gpus : List GpuCapability
  modelBandwidthKbps : ℕ
  loadPermille : ℕ
  aiRuntimeReady : Bool
  sharedLogicalCpus : ℕ
  sharedMemoryBytes : ℕ
  sharedGpuPercent : ℕ
  networkCoordinate : Option NetworkCoordinate

def sharedCpuDeviceId : String := "cpu-0"

def applyLimits (caps : NodeCapabilities) (limits : ResourceLimits) : NodeCapabilities :=
  { caps with
    sharedLogicalCpus := limits.effectiveWorkers caps.logicalCpus
    sharedMemoryBytes := limits.sharedMemoryBytes caps.totalMemoryBytes
    sharedGpuPercent := limits.gpuPercent
    gpus := if limits.offersGpu then caps.gpus else []
    aiRuntimeReady := if limits.offersGpu then caps.aiRuntimeReady else false }

/-- the lent slice of the CPU, described as a device -/
def sharedCpuDevice (caps : NodeCapabilities) : GpuCapability where
  stableId := sharedCpuDeviceId
  name := caps.cpuBrand
  backend := "cpu"
  memoryMb := some (caps.sharedMemoryBytes / (1024 * 1024))

def applyAiReadiness (caps : NodeCapabilities) (limits : ResourceLimits) (runtimeAvailable : Bool) : NodeCapabilities :=
  let gpus := caps.gpus.filter fun device => device.stableId ≠ sharedCpuDeviceId
  let acceleratorShared := !gpus.isEmpty
  let ready := runtimeAvailable && limits.offersAi acceleratorShared
  { caps with
    gpus := if ready && !acceleratorShared then gpus ++ [sharedCpuDevice caps] else gpus
    aiRuntimeReady := ready }

/-- detect, apply the limits, settle whether inference is offered -/
def advertisedCapabilities (detected : NodeCapabilities) (limits : ResourceLimits) (runtimeAvailable : Bool) :
    NodeCapabilities :=
  applyAiReadiness (applyLimits detected limits) limits runtimeAvailable

/-! ## The budget -/

/-- bytes of memory these devices report, but for a CPU listed among them -/
def vramBytes (gpus : List GpuCapability) : ℕ :=
  ((((gpus.filter fun gpu => gpu.backend ≠ "cpu").filterMap GpuCapability.memoryMb).map
    fun mb => min (mb * 2 ^ 20) (2 ^ 64 - 1)).sum) % 2 ^ 64

/-- `Lent::from_capabilities` -/
def fromCapabilities (caps : NodeCapabilities) : Amounts
  | .logicalCpus => caps.sharedLogicalCpus
  | .memoryBytes => caps.sharedMemoryBytes
  | .deviceMemoryBytes => vramBytes caps.gpus * min caps.sharedGpuPercent 100 / 100

/-- the budget that these limits mean on a machine -/
def budget (detected : NodeCapabilities) (limits : ResourceLimits) : Amounts
  | .logicalCpus => limits.effectiveWorkers detected.logicalCpus
  | .memoryBytes => limits.sharedMemoryBytes detected.totalMemoryBytes
  | .deviceMemoryBytes =>
    vramBytes (detected.gpus.filter fun device => device.stableId ≠ sharedCpuDeviceId) * min limits.gpuPercent 100 / 100

/-- the lent slice of the CPU is not memory of a device -/
theorem vramBytes_append_sharedCpuDevice (gpus : List GpuCapability) (caps : NodeCapabilities) :
    vramBytes (gpus ++ [sharedCpuDevice caps]) = vramBytes gpus := by
  have hcpu : ([sharedCpuDevice caps].filter fun gpu => gpu.backend ≠ "cpu") = [] := by simp [sharedCpuDevice]
  unfold vramBytes
  rw [List.filter_append, hcpu, List.append_nil]

theorem vramBytes_applyAiReadiness (caps : NodeCapabilities) (limits : ResourceLimits) (runtimeAvailable : Bool) :
    vramBytes (applyAiReadiness caps limits runtimeAvailable).gpus =
      vramBytes (caps.gpus.filter fun device => device.stableId ≠ sharedCpuDeviceId) := by
  simp only [applyAiReadiness]
  split_ifs
  · exact vramBytes_append_sharedCpuDevice _ caps
  · rfl

/-- **What is advertised is the share.** The budget read out of the advertised capabilities is the one the limits mean. -/
theorem fromCapabilities_advertised (detected : NodeCapabilities) (limits : ResourceLimits) (runtimeAvailable : Bool) :
    fromCapabilities (advertisedCapabilities detected limits runtimeAvailable) = budget detected limits := by
  funext axis
  cases axis with
  | logicalCpus => rfl
  | memoryBytes => rfl
  | deviceMemoryBytes =>
    show vramBytes (applyAiReadiness (applyLimits detected limits) limits runtimeAvailable).gpus * _ / 100 = _
    rw [vramBytes_applyAiReadiness]
    by_cases hgpu : limits.offersGpu = true
    · simp only [applyLimits, applyAiReadiness, advertisedCapabilities, hgpu, if_true, budget]
    · -- nothing of a GPU is lent, and the devices are cleared: both sides are zero
      have hzero : limits.gpuPercent = 0 := by simpa [ResourceLimits.offersGpu] using hgpu
      simp [applyLimits, applyAiReadiness, advertisedCapabilities, budget, hzero]

end Hocmesh.Core
