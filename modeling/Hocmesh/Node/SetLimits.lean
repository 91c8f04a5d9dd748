/-
Limits changed by several callers at once (`control.rs`, `daemon.rs`): `ControlClient::set_limits`, `set_limits_handler`, and
the tasks that write to the same capabilities.

A handler reads the limits, folds its request into them and checks the result; then it writes the file, then it replaces the
capabilities. These are three steps, and nothing holds the others off between them. A request goes over the wire as JSON, where
the `null` that stands for `Some(None)` is read as a field that was left out. `limits_kept`: in a run of orderly steps the stored
limits are those the callers asked for, one request after the other, a refused request changes nothing, and what the other
tasks have measured stays.
-/
import Hocmesh.Base.Along
import Hocmesh.Node.Consent

namespace Hocmesh.Node.SetLimits

open Hocmesh.Base Hocmesh.Core

/-! ## The wire -/

inductive JsonValue where
  | null
  | number (n : ℕ)
  | boolean (b : Bool)
deriving DecidableEq

abbrev JsonObject : Type := List (String × JsonValue)

/-- `Serialize`; a field that is `None` is left out -/
def encode (request : LimitsRequest) : JsonObject :=
  (request.cpuPercent.map fun v => ("cpu_percent", JsonValue.number v)).toList ++
  (request.gpuPercent.map fun v => ("gpu_percent", JsonValue.number v)).toList ++
  (request.memoryPercent.map fun v => ("memory_percent", JsonValue.number v)).toList ++
  (request.ai.map fun v => ("ai", match v with
    | none => JsonValue.null
    | some b => .boolean b)).toList

def numberField (body : JsonObject) (name : String) : Except String (Option ℕ) :=
  match body.lookup name with
  | none | some .null => .ok none
  | some (.number n) => .ok (some n)
  | some (.boolean _) => .error "invalid type: boolean, expected u8"

/-- the outer `Option` takes the `null` -/
def aiField (body : JsonObject) : Except String (Option (Option Bool)) :=
  match body.lookup "ai" with
  | none | some .null => .ok none
  | some (.boolean b) => .ok (some (some b))
  | some (.number _) => .error "invalid type: integer, expected a boolean"

/-- `Deserialize` -/
def decode (body : JsonObject) : Except String LimitsRequest := do
  let cpuPercent ← numberField body "cpu_percent"
  let gpuPercent ← numberField body "gpu_percent"
  let memoryPercent ← numberField body "memory_percent"
  let ai ← aiField body
  return ⟨cpuPercent, gpuPercent, memoryPercent, ai⟩

/-- what the daemon reads -/
def received (request : LimitsRequest) : LimitsRequest := { request with ai := request.ai.bind fun v => v.map some }

theorem decode_encode (request : LimitsRequest) : decode (encode request) = .ok (received request) := by
  obtain ⟨cpu, gpu, memory, ai⟩ := request
  have hai : ai = none ∨ ai = some none ∨ ∃ b, ai = some (some b) := by
    match ai with
    | none => exact Or.inl rfl
    | some none => exact Or.inr (Or.inl rfl)
    | some (some b) => exact Or.inr (Or.inr ⟨b, rfl⟩)
  cases cpu <;> cases gpu <;> cases memory <;> obtain rfl | rfl | ⟨b, rfl⟩ := hai <;> rfl

/-! ## The daemon -/

/-- what a daemon is started with -/
structure Machine where
  detected : NodeCapabilities
  runtimeAvailable : Bool
  workers : ℕ

/-- how far the handling of a request is -/
inductive Progress where
  | sent
  /-- the limits it has read, and those it will write -/
  | folded (read limits : ResourceLimits)
  | saved (limits : ResourceLimits)
  | answered (reply : Except ApiError LimitsUpdate)

/-- a call of `set_limits`: what its caller asks for, and what is sent -/
structure Call where
  request : LimitsRequest
  body : JsonObject
  progress : Progress

structure World where
  limitsFile : LimitsFile
  capabilities : NodeCapabilities
  calls : List Call

inductive Move where
  | send (request : LimitsRequest)
  | fold (call : ℕ)
  /-- how the write to the file ends, and what a write that failed has left there -/
  | save (call : ℕ) (saved : Except (String × LimitsFile) Unit)
  | publish (call : ℕ)
  | heartbeat (measured load : ℕ)
  | place (coordinate : Option NetworkCoordinate)

namespace World

variable (w : World)

def progress (i : ℕ) : Option Progress := w.calls[i]?.map Call.progress

def advance (i : ℕ) (progress : Progress) : World :=
  { w with calls := w.calls.modify i fun call => { call with progress } }

/-- the request is decoded, folded into the limits that are stored, and checked -/
def foldedInto (body : JsonObject) : Progress :=
  match decode body with
  | .error e => .answered (.error (422, e))
  | .ok request =>
    match w.limitsFile.load with
    | .error e => .answered (.error (500, e))
    | .ok stored =>
      match (request.applyTo stored).validate with
      | .error e => .answered (.error (400, e))
      | .ok () => .folded stored (request.applyTo stored)

end World

section

variable (machine : Machine)

def update (limits : ResourceLimits) : LimitsUpdate :=
  let caps := advertisedCapabilities machine.detected limits machine.runtimeAvailable
  ⟨limits, caps, caps.sharedLogicalCpus ≠ machine.workers⟩

def step (w : World) : Move → World
  | .send request => { w with calls := w.calls ++ [⟨request, encode request, .sent⟩] }
  | .fold i =>
    match w.calls[i]? with
    | some ⟨_, body, .sent⟩ => w.advance i (w.foldedInto body)
    | _ => w
  | .save i saved =>
    match w.progress i with
    | some (.folded _ limits) =>
      match saved with
      | .error (e, left) => { w.advance i (.answered (.error (500, e))) with limitsFile := left }
      | .ok () => { w.advance i (.saved limits) with limitsFile := .holds limits }
    | _ => w
  | .publish i =>
    match w.progress i with
    | some (.saved limits) =>
      { w.advance i (.answered (.ok (update machine limits))) with capabilities := (update machine limits).capabilities }
    | _ => w
  | .heartbeat measured load =>
    { w with capabilities := { w.capabilities with modelBandwidthKbps := measured, loadPermille := load } }
  | .place coordinate => { w with capabilities := { w.capabilities with networkCoordinate := coordinate } }

end

def World.start (file : LimitsFile) (capabilities : NodeCapabilities) : World := ⟨file, capabilities, []⟩

/-! ## What the callers are promised -/

/-- the limits of this request have been written -/
def Progress.accepted : Progress → Bool
  | .saved _ | .answered (.ok _) => true
  | _ => false

/-- the requests accepted so far, as their callers made them -/
def World.accepted (w : World) : List LimitsRequest :=
  (w.calls.filter fun call => call.progress.accepted).map Call.request

/-- the stored limits are the accepted requests applied to the first limits, in some order -/
def World.Applied (initial : LimitsFile) (w : World) : Prop :=
  ∃ order : List LimitsRequest, order.Perm w.accepted ∧
    w.limitsFile.load = initial.load.map fun limits => order.foldl (fun limits request => request.applyTo limits) limits

def measured (caps : NodeCapabilities) : Option NetworkCoordinate × ℕ × ℕ :=
  (caps.networkCoordinate, caps.modelBandwidthKbps, caps.loadPermille)

def Move.changesLimits : Move → Bool
  | .send _ | .fold _ | .save _ _ | .publish _ => true
  | .heartbeat _ _ | .place _ => false

/-- a step that refuses a request changes neither the file nor the capabilities, and no step of a request changes what is
measured -/
structure Spares (machine : Machine) (w : World) (m : Move) : Prop where
  refused : ∀ i e, m = .fold i → (step machine w m).progress i = some (.answered (.error (400, e))) →
    (step machine w m).limitsFile = w.limitsFile ∧ (step machine w m).capabilities = w.capabilities
  measured : m.changesLimits = true → SetLimits.measured (step machine w m).capabilities = SetLimits.measured w.capabilities

/-- No other request is saved between the reading and the saving of one, and the write does not fail. "Auto" is asked for where it
is what is stored. The capabilities are replaced while nothing is measured but what was detected. -/
def Orderly (machine : Machine) (w : World) : Move → Prop
  | .fold i => ∀ request body stored, w.calls[i]? = some ⟨request, body, .sent⟩ → request.ai = some none →
      w.limitsFile.load = .ok stored → stored.ai = none
  | .save i saved => ∀ read limits, w.progress i = some (.folded read limits) → w.limitsFile.load = .ok read ∧ saved = .ok ()
  | .publish i => ∀ limits, w.progress i = some (.saved limits) → measured w.capabilities = measured machine.detected
  | _ => True

/-! ## One request -/

/-- a request that does not ask for "auto" in vain is read as it was meant -/
theorem applyTo_received {request : LimitsRequest} {stored : ResourceLimits}
    (h : request.ai = some none → stored.ai = none) : (received request).applyTo stored = request.applyTo stored := by
  obtain ⟨cpu, gpu, memory, ai⟩ := request
  have hai : (ai.bind fun v => v.map some).getD stored.ai = ai.getD stored.ai := by
    match ai with
    | none => rfl
    | some none => exact h rfl
    | some (some b) => rfl
  simp only [received, LimitsRequest.applyTo, hai]

theorem load_holds {limits : ResourceLimits} (h : limits.validate = .ok ()) : (LimitsFile.holds limits).load = .ok limits := by
  rw [LimitsFile.load, h]
  rfl

section

variable {machine : Machine} {w : World} {i : ℕ} {call : Call} {p : Progress}

/-- the list of calls around one of them -/
theorem calls_advance (h : w.calls[i]? = some call) : ∃ before after, w.calls = before ++ call :: after ∧
    (w.advance i p).calls = before ++ { call with progress := p } :: after := by
  obtain ⟨hlt, hget⟩ := List.getElem?_eq_some_iff.1 h
  obtain ⟨before, a, after, hcalls, hlen, hmodified⟩ :=
    List.exists_of_modify (fun call : Call => { call with progress := p }) hlt
  have ha : a = call := by
    rw [hcalls, List.getElem?_append_right hlen.le, hlen, Nat.sub_self] at h
    exact Option.some.inj h
  subst ha
  exact ⟨before, after, hcalls, hmodified⟩

theorem accepted_advance_same (h : w.calls[i]? = some call) (hsame : p.accepted = call.progress.accepted) :
    (w.advance i p).accepted = w.accepted := by
  obtain ⟨before, after, hcalls, hadvanced⟩ := calls_advance (p := p) h
  rw [World.accepted, World.accepted, hcalls, hadvanced]
  simp only [List.filter_append, List.map_append, List.filter_cons, hsame]
  split_ifs <;> rfl

theorem accepted_advance_new (h : w.calls[i]? = some call) (hold : call.progress.accepted = false) (hnew : p.accepted = true) :
    (w.advance i p).accepted.Perm (w.accepted ++ [call.request]) := by
  obtain ⟨before, after, hcalls, hadvanced⟩ := calls_advance (p := p) h
  rw [World.accepted, World.accepted, hcalls, hadvanced]
  simp only [List.filter_append, List.map_append, List.filter_cons, hold, hnew, List.map_cons, Bool.false_eq_true, if_false,
    if_true]
  exact List.perm_middle.trans (List.perm_append_singleton _ _).symm

/-! ## Every request -/

/-- what an orderly run keeps -/
structure World.Inv (initial : LimitsFile) (w : World) : Prop where
  applied : w.Applied initial
  wire : ∀ call ∈ w.calls, call.body = encode call.request
  folded : ∀ call ∈ w.calls, ∀ read limits, call.progress = .folded read limits →
    limits = call.request.applyTo read ∧ limits.validate = .ok ()

variable {initial : LimitsFile}

/-- a call goes on -/
theorem World.Inv.advance (h : w.Inv initial) (hcall : w.calls[i]? = some call) {file : LimitsFile} {caps : NodeCapabilities}
    (happlied : World.Applied initial { w.advance i p with limitsFile := file, capabilities := caps })
    (hfolded : ∀ read limits, p = .folded read limits → limits = call.request.applyTo read ∧ limits.validate = .ok ()) :
    World.Inv initial { w.advance i p with limitsFile := file, capabilities := caps } := by
  obtain ⟨before, after, hcalls, hadvanced⟩ := calls_advance (p := p) hcall
  have hmem : ∀ c ∈ (w.advance i p).calls, c ∈ w.calls ∨ c = { call with progress := p } := by
    intro c hc
    rw [hadvanced, List.mem_append, List.mem_cons] at hc
    rw [hcalls, List.mem_append, List.mem_cons]
    tauto
  refine ⟨happlied, fun c hc => ?_, fun c hc read limits hprogress => ?_⟩
  · obtain hin | rfl := hmem c hc
    · exact h.wire c hin
    · exact h.wire call (List.mem_of_getElem? hcall)
  · obtain hin | rfl := hmem c hc
    · exact h.folded c hin read limits hprogress
    · exact hfolded read limits hprogress

theorem World.Applied.congr {w' : World} (h : w.Applied initial) (haccepted : w'.accepted = w.accepted)
    (hfile : w'.limitsFile = w.limitsFile) : w'.Applied initial := by
  obtain ⟨order, hperm, hload⟩ := h
  exact ⟨order, haccepted ▸ hperm, hfile ▸ hload⟩

theorem World.inv_start (file : LimitsFile) (caps : NodeCapabilities) : (World.start file caps).Inv file where
  applied := by
    refine ⟨[], List.Perm.refl _, ?_⟩
    show file.load = file.load.map fun limits => limits
    cases file.load <;> rfl
  wire call h := absurd h List.not_mem_nil
  folded call h := absurd h List.not_mem_nil

theorem World.Inv.send (h : w.Inv initial) (request : LimitsRequest) :
    World.Inv initial { w with calls := w.calls ++ [⟨request, encode request, .sent⟩] } := by
  have hmem : ∀ c ∈ w.calls ++ [⟨request, encode request, .sent⟩], c ∈ w.calls ∨ c = ⟨request, encode request, .sent⟩ := by
    intro c hc
    simpa using hc
  refine ⟨h.applied.congr ?_ rfl, fun c hc => ?_, fun c hc read limits hprogress => ?_⟩
  · simp [accepted, Progress.accepted]
  · obtain hin | rfl := hmem c hc
    · exact h.wire c hin
    · rfl
  · obtain hin | rfl := hmem c hc
    · exact h.folded c hin read limits hprogress
    · cases hprogress

theorem World.foldedInto_eq (request : LimitsRequest) : w.foldedInto (encode request) =
    match w.limitsFile.load with
    | .error e => .answered (.error (500, e))
    | .ok stored =>
      match ((received request).applyTo stored).validate with
      | .error e => .answered (.error (400, e))
      | .ok () => .folded stored ((received request).applyTo stored) := by
  rw [foldedInto, decode_encode]

/-- nothing is accepted by folding; what is folded is what was asked for -/
theorem World.foldedInto_spec {request : LimitsRequest}
    (horderly : request.ai = some none → ∀ stored, w.limitsFile.load = .ok stored → stored.ai = none) :
    (w.foldedInto (encode request)).accepted = false ∧ ∀ read limits, w.foldedInto (encode request) = .folded read limits →
      limits = request.applyTo read ∧ limits.validate = .ok () := by
  rw [World.foldedInto_eq]
  cases hload : w.limitsFile.load with
  | error e => exact ⟨rfl, nofun⟩
  | ok stored =>
    dsimp only
    rw [applyTo_received fun hauto => horderly hauto stored hload]
    cases hvalid : (request.applyTo stored).validate with
    | error e => exact ⟨rfl, nofun⟩
    | ok _ =>
      refine ⟨rfl, fun read limits heq => ?_⟩
      obtain ⟨rfl, rfl⟩ := Progress.folded.inj heq
      exact ⟨rfl, hvalid⟩

theorem World.Inv.fold (h : w.Inv initial) (horderly : Orderly machine w (.fold i)) : (step machine w (.fold i)).Inv initial := by
  simp only [SetLimits.step]
  split
  · next request body hcall =>
    have hbody : body = encode request := h.wire _ (List.mem_of_getElem? hcall)
    subst hbody
    obtain ⟨haccepted, hfolded⟩ := World.foldedInto_spec (w := w) fun hauto stored => horderly request _ stored hcall hauto
    exact h.advance hcall (h.applied.congr (accepted_advance_same hcall haccepted) rfl) hfolded
  · exact h

theorem World.call_of_progress (h : w.progress i = some p) : ∃ call, w.calls[i]? = some call ∧ call.progress = p :=
  Option.map_eq_some_iff.1 h

/-- what is saved is the request applied to what the accepted ones had left -/
theorem World.Inv.save (h : w.Inv initial) {saved : Except (String × LimitsFile) Unit}
    (horderly : Orderly machine w (.save i saved)) : (step machine w (.save i saved)).Inv initial := by
  simp only [SetLimits.step]
  split
  · next read limits hprogress =>
    obtain ⟨hread, rfl⟩ := horderly read limits hprogress
    obtain ⟨call, hcall, hfolded⟩ := World.call_of_progress hprogress
    obtain ⟨rfl, hvalid⟩ := h.folded call (List.mem_of_getElem? hcall) read limits hfolded
    refine h.advance hcall ?_ nofun
    obtain ⟨order, hperm, hload⟩ := h.applied
    refine ⟨order ++ [call.request], ?_, ?_⟩
    · have hnew := accepted_advance_new (p := .saved (call.request.applyTo read)) hcall (by rw [hfolded]; rfl) rfl
      exact (hperm.append_right _).trans hnew.symm
    · rw [hread] at hload
      cases hfirst : initial.load with
      | error e =>
        rw [hfirst] at hload
        cases hload
      | ok first =>
        rw [hfirst] at hload
        obtain rfl := Except.ok.inj hload
        rw [load_holds hvalid, Except.map, List.foldl_append]
        rfl
  · exact h

theorem World.Inv.publish (h : w.Inv initial) : (step machine w (.publish i)).Inv initial := by
  simp only [SetLimits.step]
  split
  · next limits hprogress =>
    obtain ⟨call, hcall, hsaved⟩ := World.call_of_progress hprogress
    refine h.advance hcall (h.applied.congr (accepted_advance_same hcall ?_) rfl) nofun
    rw [hsaved]
    rfl
  · exact h

/-- **One step.** -/
theorem World.Inv.step (h : w.Inv initial) {m : Move} (horderly : Orderly machine w m) : (step machine w m).Inv initial := by
  cases m with
  | send request => exact h.send request
  | fold i => exact h.fold horderly
  | save i saved => exact h.save horderly
  | publish i => exact h.publish
  | heartbeat measured load => exact ⟨h.applied, h.wire, h.folded⟩
  | place coordinate => exact ⟨h.applied, h.wire, h.folded⟩

theorem World.Inv.run (h : w.Inv initial) {moves : List Move} (horderly : Along (SetLimits.step machine) (Orderly machine) w moves) :
    (moves.foldl (SetLimits.step machine) w).Inv initial := by
  induction moves generalizing w with
  | nil => exact h
  | cons m moves ih => exact ih (h.step horderly.1) horderly.2

/-! ## What is measured -/

theorem spares_of_orderly {m : Move} (horderly : Orderly machine w m) : Spares machine w m where
  refused i e hm hrefused := by
    subst hm
    simp only [SetLimits.step]
    split <;> exact ⟨rfl, rfl⟩
  measured hchanges := by
    cases m with
    | send request => rfl
    | fold i => simp only [SetLimits.step]; split <;> rfl
    | save i saved =>
      simp only [SetLimits.step]
      split
      · cases saved <;> rfl
      · rfl
    | publish i =>
      simp only [SetLimits.step]
      split
      · next limits hprogress => exact (horderly limits hprogress).symm
      · rfl
    | heartbeat measured load => cases hchanges
    | place coordinate => cases hchanges

theorem along_spares {moves : List Move} (horderly : Along (SetLimits.step machine) (Orderly machine) w moves) :
    Along (SetLimits.step machine) (Spares machine) w moves := by
  induction moves generalizing w with
  | nil => trivial
  | cons m moves ih => exact ⟨spares_of_orderly horderly.1, ih horderly.2⟩

end

/-- **Limits are neither lost nor misread.** In an orderly run, after every step, the stored limits are the accepted requests
applied one after the other to the limits at the start; a request that is refused changes nothing, and no request changes what is
measured. -/
theorem limits_kept (machine : Machine) (file : LimitsFile) (caps : NodeCapabilities) (moves : List Move)
    (h : Along (step machine) (Orderly machine) (.start file caps) moves) :
    (∀ earlier later, moves = earlier ++ later → (earlier.foldl (step machine) (.start file caps)).Applied file) ∧
      Along (step machine) (Spares machine) (.start file caps) moves := by
  refine ⟨?_, along_spares h⟩
  rintro earlier later rfl
  exact ((World.inv_start file caps).run ((Along.append_iff _ earlier later).1 h).1).applied

/-! ## Two callers, and a caller who asks for "auto" -/

/-- a machine of eight processors that has measured nothing -/
def smallMachine : Machine where
  detected := ⟨"cpu", 8, 2 ^ 34, [], 0, 0, false, 0, 0, 0, none⟩
  runtimeAvailable := false
  workers := 4

def askCpu : LimitsRequest := ⟨some 60, none, none, none⟩

def askMemory : LimitsRequest := ⟨none, none, some 70, none⟩

/-- one caller after the other -/
theorem one_after_the_other :
    let moves := [.send askCpu, .send askMemory, .fold 0, .save 0 (.ok ()), .publish 0, .heartbeat 0 0, .fold 1, .save 1 (.ok ()),
      .publish 1]
    (∀ earlier later, moves = earlier ++ later →
      (earlier.foldl (step smallMachine) (.start .absent smallMachine.detected)).Applied .absent) ∧
      Along (step smallMachine) (Spares smallMachine) (.start .absent smallMachine.detected) moves := by
  refine limits_kept smallMachine .absent smallMachine.detected _ ⟨trivial, trivial, ?_, ?_, fun _ _ => rfl, trivial, ?_, ?_,
    fun _ _ => rfl, trivial⟩
  · rintro _ _ stored ⟨⟩ hauto
    cases hauto
  · intro read limits hprogress
    obtain ⟨rfl, -⟩ := Progress.folded.inj (Option.some.inj hprogress)
    exact ⟨rfl, rfl⟩
  · rintro _ _ stored ⟨⟩ hauto
    cases hauto
  · intro read limits hprogress
    obtain ⟨rfl, -⟩ := Progress.folded.inj (Option.some.inj hprogress)
    exact ⟨rfl, rfl⟩

/-- the operator lent inference and asks for "auto" again; the request is accepted and nothing is changed -/
theorem auto_not_read : ¬ ∀ (machine : Machine) (file : LimitsFile) (caps : NodeCapabilities) (moves : List Move),
    (∀ earlier later, moves = earlier ++ later → (earlier.foldl (step machine) (.start file caps)).Applied file) ∧
      Along (step machine) (Spares machine) (.start file caps) moves := by
  intro h
  obtain ⟨order, hperm, hload⟩ := (h smallMachine (.holds ⟨50, 0, 50, some true⟩) smallMachine.detected
    [.send ⟨none, none, none, some none⟩, .fold 0, .save 0 (.ok ())]).1 _ [] (List.append_nil _).symm
  have haccepted : order = [⟨none, none, none, some none⟩] := List.perm_singleton.1 hperm
  rw [haccepted] at hload
  exact absurd hload (by decide)

/-- two callers read the same limits; the first one's change is lost -/
example : (([.send askCpu, .send askMemory, .fold 0, .fold 1, .save 0 (.ok ()), .save 1 (.ok ())].foldl (step smallMachine)
    (.start .absent smallMachine.detected)).limitsFile.load.toOption.map fun limits => (limits.cpuPercent, limits.memoryPercent)) =
      some (50, 70) := by
  decide

end Hocmesh.Node.SetLimits
