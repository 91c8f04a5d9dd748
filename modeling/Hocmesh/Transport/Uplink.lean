/-
The uplink a node shows by serving chunks: `metered_body` (`hocmesh-transport/src/lib.rs`), `UplinkMeter`
(`hocmesh-core/src/bandwidth.rs`), what a heartbeat makes of it (`hocmesh-node/src/daemon.rs`) and the roles it opens
(`hocmesh-core/src/roles.rs`).

Any number of chunks leave at once, each in slices that its own connection asks for, and a connection may stop asking. The
meter is fed by the last slice of each, and keeps the last readings. `Serving.Sound` is the invariant: every byte of a chunk
went out once or is still to go, and a chunk was put on the meter if and only if it went out whole.

`rate` is the floating-point quotient of a transfer, cut to an integer.
-/
import Mathlib.Data.List.DropRight
import Hocmesh.Base.Ranks
import Hocmesh.Core.Limits

namespace Hocmesh.Transport.Uplink

open Hocmesh.Base Hocmesh.Core

/-! ## The meter -/

/-- transfers below this are timing the round trip, not the link -/
def meaningfulBytes : ℕ := 256 * 1024

/-- how many recent samples decide the answer -/
def window : ℕ := 16

/-- 100 microseconds, in nanoseconds -/
def minElapsed : ℕ := 100000

structure UplinkMeter where
  samples : List ℕ

/-- one completed transfer, the time in nanoseconds -/
structure Transfer where
  bytes : ℕ
  elapsed : ℕ

namespace UplinkMeter

def new : UplinkMeter := ⟨[]⟩

/-- record one completed transfer -/
def record (rate : ℕ → ℕ → ℕ) (meter : UplinkMeter) (t : Transfer) : UplinkMeter :=
  if t.bytes < meaningfulBytes ∨ t.elapsed < minElapsed then meter
  else
    let kbps := rate t.bytes t.elapsed
    if kbps = 0 then meter
    else
      let samples := meter.samples ++ [kbps]
      if samples.length > window then ⟨samples.drop (samples.length - window)⟩ else ⟨samples⟩

/-- the measured uplink in kbit/s, or `none` if nothing has been measured -/
def kbps (meter : UplinkMeter) : Option ℕ := if meter.samples = [] then none else upperMedian meter.samples

end UplinkMeter

/-! ## A chunk on its way out -/

/-- how much of a chunk is handed to the writer at a time -/
def drainSlice : ℕ := 256 * 1024

/-- the state of a `metered_body` stream: the whole length, what is still to go, and when the first slice was asked for -/
structure Body where
  total : ℕ
  buffer : List UInt8
  started : Option ℕ

/-- what one poll of the stream gives: a slice, the stream after it, and what is put on the meter -/
structure Polled where
  slice : List UInt8
  body : Body
  transfer : Option Transfer

/-- `metered_body` -/
def Body.new (bytes : List UInt8) : Body := ⟨bytes.length, bytes, none⟩

/-- one poll, the clock read as it begins and once more when the last slice is cut -/
def Body.poll (b : Body) (now later : ℕ) : Option Polled :=
  if b.buffer = [] then none
  else
    let started := b.started.getD now
    let take := min drainSlice b.buffer.length
    let rest := b.buffer.drop take
    some
      { slice := b.buffer.take take
        body := { b with buffer := rest, started := some started }
        transfer := if rest = [] then some ⟨b.total - take, later - started⟩ else none }

/-! ## A seed server -/

/-- one chunk being served, and what went over its connection so far -/
structure Served where
  bytes : List UInt8
  body : Body
  sent : List UInt8
  /-- what was put on the meter for it -/
  credited : List Transfer

/-- a seed server: its meter, every response it has begun, and the transfers in the order they were recorded -/
structure Serving where
  meter : UplinkMeter
  responses : List Served
  recorded : List Transfer

/-- a chunk is asked for, or the connection of a response asks for a slice -/
inductive Event where
  | serve (bytes : List UInt8)
  | poll (response now later : ℕ)

namespace Serving

def start : Serving := ⟨.new, [], []⟩

def step (rate : ℕ → ℕ → ℕ) (s : Serving) : Event → Serving
  | .serve bytes => { s with responses := s.responses ++ [⟨bytes, .new bytes, [], []⟩] }
  | .poll i now later =>
    match s.responses[i]? with
    | none => s
    | some r =>
      match r.body.poll now later with
      | none => s
      | some p =>
        { meter := p.transfer.toList.foldl (UplinkMeter.record rate) s.meter
          responses := s.responses.set i
            { r with body := p.body, sent := r.sent ++ p.slice, credited := r.credited ++ p.transfer.toList }
          recorded := s.recorded ++ p.transfer.toList }

def run (rate : ℕ → ℕ → ℕ) (events : List Event) : Serving := events.foldl (step rate) start

end Serving

/-! ## Roles -/

/-- uplink a machine must have shown before it may host a prefill stage -/
def prefillUplinkKbps : ℕ := 1000000

inductive NodeRole where
  | prefill
  | decode
  | seed
  | batch
deriving DecidableEq

def NodeRole.all : List NodeRole := [.prefill, .decode, .seed, .batch]

/-- the uplink this node has actually shown; on the wire zero is "unmeasured" -/
def measuredUplinkKbps (caps : NodeCapabilities) : Option ℕ :=
  if caps.modelBandwidthKbps > 0 then some caps.modelBandwidthKbps else none

/-- whether this node may be asked to do a role -/
def canServe (caps : NodeCapabilities) (role : NodeRole) : Bool :=
  if caps.sharedLogicalCpus = 0 then false
  else match role with
    | .seed => true
    | .batch => caps.aiRuntimeReady
    | .decode => caps.aiRuntimeReady
    | .prefill => caps.aiRuntimeReady && (measuredUplinkKbps caps).any fun kbps => prefillUplinkKbps ≤ kbps

/-- everything this node may be asked to do -/
def rolesFor (caps : NodeCapabilities) : List NodeRole := NodeRole.all.filter (canServe caps)

/-- what a heartbeat advertises: the measured uplink and the load are folded in -/
def heartbeat (caps : NodeCapabilities) (meter : UplinkMeter) (load : ℕ) : NodeCapabilities :=
  { caps with modelBandwidthKbps := meter.kbps.getD 0, loadPermille := load }

/-! ## What the meter holds -/

/-- the reading a transfer gives, if it says anything about the link -/
def measured (rate : ℕ → ℕ → ℕ) (t : Transfer) : Option ℕ :=
  if t.bytes < meaningfulBytes ∨ t.elapsed < minElapsed ∨ rate t.bytes t.elapsed = 0 then none
  else some (rate t.bytes t.elapsed)

section

variable {rate : ℕ → ℕ → ℕ}

theorem rtake_concat (l : List ℕ) (x : ℕ) {n : ℕ} (hn : 0 < n) : (l.rtake n ++ [x]).rtake n = (l ++ [x]).rtake n := by
  obtain ⟨n, rfl⟩ := Nat.exists_eq_succ_of_ne_zero hn.ne'
  rw [List.rtake_concat_succ, List.rtake_concat_succ, List.rtake, List.rtake, List.rtake, List.drop_drop]
  congr 2
  rw [List.length_drop]
  omega

theorem record_samples (meter : UplinkMeter) (t : Transfer) :
    (meter.record rate t).samples = match measured rate t with
      | none => meter.samples
      | some kbps => (meter.samples ++ [kbps]).rtake window := by
  unfold UplinkMeter.record measured
  by_cases hsmall : t.bytes < meaningfulBytes ∨ t.elapsed < minElapsed
  · rw [if_pos hsmall, if_pos (hsmall.elim Or.inl fun h => Or.inr (Or.inl h))]
  · rw [if_neg hsmall]
    push Not at hsmall
    by_cases hzero : rate t.bytes t.elapsed = 0
    · simp only [hzero, if_true, or_true]
    · rw [if_neg (by simp [hsmall, hzero] : ¬ (_ ∨ _ ∨ _))]
      simp only [hzero, if_false, List.rtake]
      split_ifs with hlong
      · rfl
      · rw [Nat.sub_eq_zero_of_le (not_lt.1 hlong), List.drop_zero]

/-- the meter keeps the readings of the last transfers that gave one -/
theorem record_recent (meter : UplinkMeter) (before : List Transfer) (t : Transfer)
    (h : meter.samples = (before.filterMap (measured rate)).rtake window) :
    (meter.record rate t).samples = ((before ++ [t]).filterMap (measured rate)).rtake window := by
  rw [record_samples, List.filterMap_append]
  cases hm : measured rate t with
  | none => rw [List.filterMap_cons_none hm, List.filterMap_nil, List.append_nil, h]
  | some kbps =>
    rw [List.filterMap_cons_some hm, List.filterMap_nil, h]
    exact rtake_concat _ kbps (by decide)

/-! ## One response -/

/-- what went out and what is to go are the chunk, and only the last slice puts it on the meter -/
structure Served.Sound (r : Served) : Prop where
  whole : r.sent ++ r.body.buffer = r.bytes
  total : r.body.total = r.bytes.length
  /-- slices are full until the last one -/
  slices : r.body.buffer ≠ [] → drainSlice ∣ r.sent.length
  waiting : r.body.buffer ≠ [] ∨ r.bytes = [] → r.credited = []
  drained : r.body.buffer = [] → r.bytes ≠ [] →
    ∃ elapsed, r.credited = [⟨drainSlice * ((r.bytes.length - 1) / drainSlice), elapsed⟩]

theorem Served.sound_new (bytes : List UInt8) : Served.Sound ⟨bytes, .new bytes, [], []⟩ where
  whole := rfl
  total := rfl
  slices := fun _ => dvd_zero _
  waiting := fun _ => rfl
  drained := fun hnil hne => absurd hnil hne

/-- everything a poll can give -/
theorem Body.poll_some {b : Body} {now later : ℕ} {p : Polled} (h : b.poll now later = some p) :
    b.buffer ≠ [] ∧ p.slice ++ p.body.buffer = b.buffer ∧ p.body.total = b.total ∧ p.slice.length = min drainSlice b.buffer.length ∧
      (p.body.buffer ≠ [] ∧ p.transfer = none ∨
        p.body.buffer = [] ∧ ∃ elapsed, p.transfer = some ⟨b.total - p.slice.length, elapsed⟩) := by
  unfold Body.poll at h
  split_ifs at h with hnil
  obtain rfl := Option.some.inj h
  refine ⟨hnil, List.take_append_drop _ _, rfl, by simp, ?_⟩
  by_cases hrest : b.buffer.drop (min drainSlice b.buffer.length) = []
  · refine Or.inr ⟨hrest, later - b.started.getD now, ?_⟩
    simp only [hrest, if_true, List.length_take]
    simp
  · exact Or.inl ⟨hrest, if_neg hrest⟩

theorem Served.Sound.poll {r : Served} (h : r.Sound) {now later : ℕ} {p : Polled} (hp : r.body.poll now later = some p) :
    Served.Sound { r with body := p.body, sent := r.sent ++ p.slice, credited := r.credited ++ p.transfer.toList } := by
  obtain ⟨hne, hcut, htotal, hlen, hend⟩ := Body.poll_some hp
  have hslices := h.slices hne
  have hcredit := h.waiting (Or.inl hne)
  have hbytes : r.bytes ≠ [] := by
    rw [← h.whole]
    exact List.append_ne_nil_of_right_ne_nil _ hne
  have hsum : r.bytes.length = r.sent.length + (p.slice.length + p.body.buffer.length) := by
    rw [← h.whole, ← hcut, List.length_append, List.length_append]
  have hbuffer : r.body.buffer.length = p.slice.length + p.body.buffer.length := by rw [← hcut, List.length_append]
  have hpos : 0 < r.body.buffer.length := List.length_pos_iff.2 hne
  constructor
  case whole => rw [List.append_assoc, hcut, h.whole]
  case total => rw [htotal, h.total]
  case slices =>
    intro hmore
    have hrest := List.length_pos_iff.2 hmore
    have hfull : p.slice.length = drainSlice := by
      dsimp only at hrest
      omega
    rw [List.length_append, hfull]
    exact Nat.dvd_add hslices dvd_rfl
  case waiting =>
    intro hwait
    rcases hend with ⟨-, hnone⟩ | ⟨hdone, -⟩
    · simp only [hcredit, hnone, Option.toList_none, List.append_nil]
    · exact absurd hwait (not_or.2 ⟨not_not.2 hdone, hbytes⟩)
  case drained =>
    intro hdone _
    rcases hend with ⟨hmore, -⟩ | ⟨-, elapsed, htransfer⟩
    · exact absurd hdone hmore
    · refine ⟨elapsed, ?_⟩
      obtain ⟨k, hk⟩ := hslices
      have hlast : p.body.buffer.length = 0 := List.length_eq_zero_iff.2 hdone
      have hdrain : 0 < drainSlice := by decide
      have hquot : (r.bytes.length - 1) / drainSlice = k := by
        refine Nat.div_eq_of_lt_le ?_ ?_
        · rw [mul_comm]
          omega
        · rw [Nat.succ_mul, mul_comm]
          omega
      have hbefore : r.body.total - p.slice.length = drainSlice * k := by
        rw [h.total]
        omega
      simp only [hcredit, htransfer, Option.toList_some, List.nil_append, hquot, hbefore]

/-! ## Every run of the server -/

/-- every response is sound, and the meter holds the last readings of what they put on it -/
structure Serving.Sound (rate : ℕ → ℕ → ℕ) (s : Serving) : Prop where
  responses : ∀ r ∈ s.responses, r.Sound
  recorded : s.recorded.Perm (s.responses.flatMap (·.credited))
  meter : s.meter.samples = (s.recorded.filterMap (measured rate)).rtake window

theorem Serving.sound_start : Serving.start.Sound rate where
  responses := fun _ hr => nomatch hr
  recorded := List.Perm.refl _
  meter := by simp [Serving.start, UplinkMeter.new]

/-- putting a response in another's place changes what was put on the meter by what it adds -/
theorem flatMap_set {responses : List Served} {i : ℕ} {r r' : Served} (hr : responses[i]? = some r) {more : List Transfer}
    (hmore : r'.credited = r.credited ++ more) :
    ((responses.set i r').flatMap (·.credited)).Perm (responses.flatMap (·.credited) ++ more) := by
  obtain ⟨hi, hget⟩ := List.getElem?_eq_some_iff.1 hr
  have hsplit : responses.flatMap (·.credited) = (responses.take i).flatMap (·.credited) ++
      (r.credited ++ (responses.drop (i + 1)).flatMap (·.credited)) := by
    conv_lhs => rw [← List.take_append_drop i responses, List.drop_eq_getElem_cons hi, hget]
    rw [List.flatMap_append, List.flatMap_cons]
  rw [List.set_eq_take_append_cons_drop, if_pos hi, List.flatMap_append, List.flatMap_cons, hmore, hsplit]
  simp only [List.append_assoc]
  refine List.Perm.append_left _ (List.Perm.append_left _ ?_)
  exact List.perm_append_comm

theorem Serving.Sound.step {s : Serving} (h : s.Sound rate) (event : Event) : (s.step rate event).Sound rate := by
  cases event with
  | serve bytes =>
    refine ⟨?_, ?_, h.meter⟩
    · intro r hr
      rcases List.mem_append.1 hr with hold | hnew
      · exact h.responses r hold
      · rw [List.mem_singleton.1 hnew]
        exact Served.sound_new bytes
    · simp only [Serving.step, List.flatMap_append, List.flatMap_singleton, List.append_nil]
      exact h.recorded
  | poll i now later =>
    cases hr : s.responses[i]? with
    | none =>
      simp only [Serving.step, hr]
      exact h
    | some r =>
      cases hp : r.body.poll now later with
      | none =>
        simp only [Serving.step, hr, hp]
        exact h
      | some p =>
        simp only [Serving.step, hr, hp]
        refine ⟨?_, ?_, ?_⟩
        · intro x hx
          rcases List.mem_or_eq_of_mem_set hx with hold | rfl
          · exact h.responses x hold
          · exact (h.responses r (List.mem_of_getElem? hr)).poll hp
        · exact (h.recorded.append_right _).trans (flatMap_set hr rfl).symm
        · cases htransfer : p.transfer with
          | none =>
            simp only [Option.toList_none, List.append_nil, List.foldl_nil]
            exact h.meter
          | some t => exact record_recent s.meter s.recorded t h.meter

theorem Serving.sound_run (events : List Event) : (Serving.run rate events).Sound rate := by
  have hall : ∀ s : Serving, s.Sound rate → (events.foldl (Serving.step rate) s).Sound rate := by
    induction events with
    | nil => exact fun s h => h
    | cons event events ih => exact fun s h => ih _ (h.step event)
  exact hall _ Serving.sound_start

/-- what the meter answers after a run -/
theorem Serving.Sound.kbps {s : Serving} (h : s.Sound rate) :
    s.meter.kbps = upperMedian ((s.recorded.filterMap (measured rate)).rtake window) := by
  rw [UplinkMeter.kbps, h.meter]
  split_ifs with hnil
  · rw [hnil]
    rfl
  · rfl

end

/-- the one role that asks for an uplink -/
theorem canServe_prefill (caps : NodeCapabilities) : canServe caps .prefill = true ↔
    caps.sharedLogicalCpus ≠ 0 ∧ caps.aiRuntimeReady = true ∧ prefillUplinkKbps ≤ caps.modelBandwidthKbps := by
  unfold canServe measuredUplinkKbps
  have hpos : 0 < prefillUplinkKbps := by decide
  split_ifs with hcpus hkbps
  · simp [hcpus]
  · simp [hcpus]
  · have hlt : ¬ prefillUplinkKbps ≤ caps.modelBandwidthKbps := by omega
    simp [hlt]

/-- **Who may hold the first stage.** After any run of its seed server a node's heartbeat opens it the prefill role exactly
when it lends a core, can run a model, and has at least one reading, at least half of the last sixteen being a gigabit or
more. No other role depends on what was measured. -/
theorem prefill_iff (rate : ℕ → ℕ → ℕ) (events : List Event) (caps : NodeCapabilities) (load : ℕ) :
    let s := Serving.run rate events
    let readings := (s.recorded.filterMap (measured rate)).rtake window
    let advertised := heartbeat caps s.meter load
    (NodeRole.prefill ∈ rolesFor advertised ↔ caps.sharedLogicalCpus ≠ 0 ∧ caps.aiRuntimeReady = true ∧ readings ≠ [] ∧
      readings.length ≤ 2 * readings.countP (prefillUplinkKbps ≤ ·)) ∧
    ∀ role ≠ NodeRole.prefill, role ∈ rolesFor advertised ↔ role ∈ rolesFor caps := by
  intro s readings advertised
  have h : s.Sound rate := Serving.sound_run events
  have hall : ∀ role, role ∈ NodeRole.all := by
    intro role
    cases role <;> decide
  refine ⟨?_, ?_⟩
  · have hserves : NodeRole.prefill ∈ rolesFor advertised ↔ caps.sharedLogicalCpus ≠ 0 ∧ caps.aiRuntimeReady = true ∧
        prefillUplinkKbps ≤ s.meter.kbps.getD 0 := by
      rw [rolesFor, List.mem_filter, and_iff_right (hall _)]
      exact canServe_prefill _
    rw [hserves, h.kbps]
    refine and_congr_right fun _ => and_congr_right fun _ => ?_
    cases hmedian : upperMedian readings with
    | none =>
      rw [(upperMedian_eq_none_iff _).1 hmedian, Option.getD_none]
      exact ⟨fun hle => absurd hle (by decide), fun hne => absurd rfl hne.1⟩
    | some kbps =>
      have hne : readings ≠ [] := by
        intro hnil
        rw [(upperMedian_eq_none_iff _).2 hnil] at hmedian
        cases hmedian
      rw [Option.getD_some, le_upperMedian_iff hmedian, and_iff_right hne]
  · intro role hrole
    rw [rolesFor, rolesFor, List.mem_filter, List.mem_filter]
    cases role with
    | prefill => exact absurd rfl hrole
    | decode => exact Iff.rfl
    | seed => exact Iff.rfl
    | batch => exact Iff.rfl

end Hocmesh.Transport.Uplink
