/-
Sessions are released: what a call to `generate_over_chain` or `generate_many_over_chain` leaves on the chain.

A run that has ended sends a reset, and the reset is passed from stage to stage; when the run is finished no stage holds
its session. That is so in every schedule in which no run stops waiting for a request that is still being served and no
run is dropped before it has finished (`sessions_released`). The call itself drops runs: the first failed prompt ends
`generate_many_over_chain`, the tasks of the others go with it, and their sessions stay (`dropped_run_keeps_session`).
-/
import Hocmesh.Base.Along
import Hocmesh.Protocol.Crypto
import Hocmesh.Node.Runs

namespace Hocmesh.Node

open Hocmesh.Base Hocmesh.Engine

/-- the stages of a chain hand on to each other and the last one to nobody -/
def Wired (chain : List StageState) : Prop := ∀ k s, chain[k]? = some s → (s.next = none ↔ k + 1 = chain.length)

/-- every stage before the `k`-th has forgotten the sequence -/
def ForgottenBefore (k : ℕ) (views : List View) : Prop := ∀ j < k, ∀ v, views[j]? = some v → v.held = none

/-- no stage holds the session of a run -/
def Unheld (chain : List StageState) (id : String) : Prop := ∀ s ∈ chain, s.sessions[id]? = none

theorem unheld_of_forgotten {chain : List StageState} {id : String} {k : ℕ} (hk : chain.length ≤ k)
    (h : ForgottenBefore k (viewOf id chain)) : Unheld chain id := by
  intro s hs
  obtain ⟨j, hj, rfl⟩ := List.mem_iff_getElem.1 hs
  exact h j (by omega) _ (viewOf_get (List.getElem?_eq_getElem hj))

theorem forgotten_of_unheld {chain : List StageState} {id : String} (h : Unheld chain id) (k : ℕ) :
    ForgottenBefore k (viewOf id chain) := by
  intro j _ v hv
  simp only [viewOf, List.getElem?_map, Option.map_eq_some_iff] at hv
  obtain ⟨s, hs, rfl⟩ := hv
  exact h s (List.mem_of_getElem? hs)

/-! ## One stage -/

namespace StageState

variable (ar : Arith) {s : StageState}

theorem serve_reset_forgets {id : String} (hid : Travels id) : (s.serve ar (.reset (some id))).1.sessions[id]? = none := by
  have hsessions : (s.serve ar (.reset (some id))).1.sessions = s.sessions.erase id := by
    simp only [serve]
    cases s.next <;> exact if_pos hid
  rw [hsessions, Std.ExtTreeMap.getElem?_erase]
  simp

/-- a reset creates nothing, whoever sends it -/
theorem serve_reset_none {id : String} (header : Option String) (h : s.sessions[id]? = none) :
    (s.serve ar (.reset header)).1.sessions[id]? = none := by
  have hsessions : (s.serve ar (.reset header)).1.sessions = ∅ ∨
      ∃ other, (s.serve ar (.reset header)).1.sessions = s.sessions.erase other := by
    cases header with
    | none =>
      left
      simp only [serve]
      cases s.next <;> rfl
    | some other =>
      by_cases ht : Travels other
      · refine Or.inr ⟨other, ?_⟩
        simp only [serve]
        cases s.next <;> exact if_pos ht
      · left
        simp only [serve]
        cases s.next <;> exact if_neg ht
  rcases hsessions with heq | ⟨other, heq⟩
  · rw [heq]
    simp
  · rw [heq, Std.ExtTreeMap.getElem?_erase]
    split_ifs
    · rfl
    · exact h

end StageState

/-! ## One run -/

/-- what the chain owes a run, as the run's own session sees it -/
structure Released (views : List View) (c : Client) : Prop where
  tidy : c.Tidy
  travels : Travels c.run.session
  kept : c.phase ≠ .aborted
  joined : c.joined = true → c.phase = .finished
  releasing : ∀ k r, c.phase = .releasing k r → r = .reset (some c.run.session) ∧ ForgottenBefore k views
  finished : c.phase = .finished → ForgottenBefore views.length views

theorem released_launch {chain : List StageState} {run : Run} (hid : Travels run.session) (h : Unheld chain run.session) :
    Released (viewOf run.session chain) (Client.launch run) := by
  unfold Client.launch
  split_ifs
  · refine ⟨?_, hid, by simp, by simp, by simp, fun _ => forgotten_of_unheld h _⟩
    intro k r hu
    simp [Client.underWay] at hu
  · refine ⟨?_, hid, by simp, by simp, by simp, by simp⟩
    intro k r hu
    simp [Client.underWay] at hu

theorem Released.unjoined {views : List View} {c : Client} (h : Released views c) (hp : c.phase ≠ .finished) :
    c.joined = false := by
  by_contra hj
  exact hp (h.joined (by simpa using hj))

/-- a run that sends a token or settles has nothing to show yet -/
theorem Released.of_phase {views : List View} {c : Client} (htidy : c.Tidy) (hid : Travels c.run.session) (hj : c.joined = false)
    (hp : c.phase = .sending ∨ (∃ k r, c.phase = .waiting k r) ∨ c.phase = .releasing 0 (.reset (some c.run.session))) :
    Released views c := by
  rcases hp with hp | ⟨k, r, hp⟩ | hp
  · exact ⟨htidy, hid, by simp [hp], by simp [hj], by simp [hp], by simp [hp]⟩
  · exact ⟨htidy, hid, by simp [hp], by simp [hj], by simp [hp], by simp [hp]⟩
  · refine ⟨htidy, hid, by simp [hp], by simp [hj], ?_, by simp [hp]⟩
    intro k r h
    rw [hp] at h
    cases h
    exact ⟨rfl, fun j hj => absurd hj (Nat.not_lt_zero j)⟩

theorem receive_phase (ar : Arith) (sha256 : List UInt8 → String) (c : Client) (answer : Check (List UInt8)) :
    ((c.receive ar sha256 answer).phase = .sending ∨
      (c.receive ar sha256 answer).phase = .releasing 0 (.reset (some c.run.session))) ∧
    (c.receive ar sha256 answer).joined = c.joined := by
  unfold Client.receive
  split
  · exact ⟨Or.inr rfl, rfl⟩
  · exact ⟨Or.inl rfl, rfl⟩
  · exact ⟨Or.inr rfl, rfl⟩

/-- one more stage has forgotten the sequence -/
theorem forgotten_serve (ar : Arith) {chain : List StageState} {id : String} {k : ℕ} {s : StageState} (hid : Travels id)
    (hs : chain[k]? = some s) (h : ForgottenBefore k (viewOf id chain)) :
    ForgottenBefore (k + 1) (viewOf id (chain.set k (s.serve ar (.reset (some id))).1)) := by
  intro j hj v hv
  simp only [viewOf, List.getElem?_map, Option.map_eq_some_iff] at hv
  obtain ⟨t, ht, rfl⟩ := hv
  by_cases hjk : j = k
  · subst hjk
    have hlt : j < chain.length := (List.getElem?_eq_some_iff.1 hs).1
    rw [List.getElem?_set_self hlt] at ht
    obtain rfl := Option.some.inj ht
    exact StageState.serve_reset_forgets ar hid
  · rw [List.getElem?_set_ne (Ne.symm hjk)] at ht
    exact h j (by omega) _ (viewOf_get ht)

/-- **A run's own step.** -/
theorem turn_released (ar : Arith) (sha256 : List UInt8 → String) {chain : List StageState} {c : Client} (hw : Wired chain)
    (h : Released (viewOf c.run.session chain) c) :
    Released (viewOf c.run.session (c.turn ar sha256 chain).1) (c.turn ar sha256 chain).2 := by
  have htidy := Client.turn_tidy ar sha256 chain h.tidy h.travels
  have hid : Travels (c.turn ar sha256 chain).2.run.session := by rw [Client.turn_run]; exact h.travels
  cases hphase : c.phase with
  | sending =>
    have hj := h.unjoined (by simp [hphase])
    refine Released.of_phase htidy hid ?_ ?_
    · unfold Client.turn
      rw [hphase]
      simp only
      split <;> exact hj
    · rw [Client.turn_run]
      unfold Client.turn
      rw [hphase]
      simp only
      split
      · exact Or.inr (Or.inr rfl)
      · exact Or.inr (Or.inl ⟨_, _, rfl⟩)
  | waiting k r =>
    have hj := h.unjoined (by simp [hphase])
    have hreceive := receive_phase ar sha256 c
    refine Released.of_phase htidy hid ?_ ?_
    · unfold Client.turn
      rw [hphase]
      simp only
      split
      · exact (hreceive _).2.trans hj
      · split
        · exact (hreceive _).2.trans hj
        · exact hj
    · rw [Client.turn_run]
      unfold Client.turn
      rw [hphase]
      simp only
      split
      · exact (hreceive _).1.imp id Or.inr
      · split
        · exact (hreceive _).1.imp id Or.inr
        · exact Or.inr (Or.inl ⟨_, _, rfl⟩)
  | releasing k r =>
    obtain ⟨rfl, hforgot⟩ := h.releasing k r hphase
    have hjoined := h.unjoined (by simp [hphase])
    cases hs : chain[k]? with
    | none =>
      have hlen : chain.length ≤ k := List.getElem?_eq_none_iff.1 hs
      have hturn : c.turn ar sha256 chain = (chain, { c with phase := .finished }) := by
        simp only [Client.turn, hphase, hs]
      rw [hturn] at htidy ⊢
      refine ⟨htidy, h.travels, by simp, by simp, by simp, ?_⟩
      intro _ j hj v hv
      have hj' : j < chain.length := by simpa using hj
      exact hforgot j (by omega) v hv
    | some s =>
      have hserved := forgotten_serve ar h.travels hs hforgot
      have hlt : k < chain.length := (List.getElem?_eq_some_iff.1 hs).1
      cases hnext : s.next with
      | none =>
        have hturn : c.turn ar sha256 chain =
            (chain.set k (s.serve ar (.reset (some c.run.session))).1, { c with phase := .finished }) := by
          simp only [Client.turn, hphase, hs, StageState.serve, hnext]
        have hlast := (hw k s hs).1 hnext
        rw [hturn] at htidy ⊢
        refine ⟨htidy, h.travels, by simp, by simp, by simp, ?_⟩
        intro _
        rw [length_viewOf, List.length_set, ← hlast]
        exact hserved
      | some address =>
        have hturn : c.turn ar sha256 chain = (chain.set k (s.serve ar (.reset (some c.run.session))).1,
            { c with phase := .releasing (k + 1) (.reset (some c.run.session)) }) := by
          simp only [Client.turn, hphase, hs, StageState.serve, hnext]
        rw [hturn] at htidy ⊢
        refine ⟨htidy, h.travels, by simp, by simp [hjoined], ?_, by simp⟩
        intro k' r' hp
        simp only [Phase.releasing.injEq] at hp
        obtain ⟨rfl, rfl⟩ := hp
        exact ⟨rfl, hserved⟩
  | finished =>
    have hturn : c.turn ar sha256 chain = (chain, c) := by simp only [Client.turn, hphase]
    rw [hturn]
    exact h
  | aborted => exact absurd hphase h.kept

/-! ## The whole system -/

def Client.succeeded (c : Client) : Bool :=
  match c.outcome with
  | some (.ok _) => true
  | _ => false

def Request.isReset : Request → Bool
  | .reset _ => true
  | _ => false

/-- what a schedule must not do: stop waiting for a request that is being served, take a failed run while others are
still going, or serve a stranger's request under an id of the call -/
def Orderly (w : World) (a : Act) : Prop :=
  match a with
  | .giveUp i => ∀ c ∈ w.clients[i]?, c.underWay = none
  | .collect i => ∀ c ∈ w.clients[i]?, c.phase = .finished →
      c.succeeded ∨ ∀ other ∈ w.clients, other.phase = .finished
  | .other _ r => r.isReset ∨ ∀ c ∈ w.clients, r.target ≠ some c.run.session
  | _ => True

instance (w : World) (a : Act) : Decidable (Orderly w a) := by
  unfold Orderly
  split <;> infer_instance

structure Clean (w : World) : Prop where
  wired : Wired w.chain
  strays : w.strays = []
  distinct : (w.clients.map fun c => c.run.session).Nodup
  released : ∀ c ∈ w.clients, Released (viewOf c.run.session w.chain) c
  returned : w.returned = true → ∀ c ∈ w.clients, c.phase = .finished

theorem wired_set {chain : List StageState} (h : Wired chain) {k : ℕ} {s s' : StageState} (hs : chain[k]? = some s)
    (hn : s'.next = s.next) : Wired (chain.set k s') := by
  intro j t ht
  rw [List.length_set]
  by_cases hjk : j = k
  · subst hjk
    have hlt : j < chain.length := (List.getElem?_eq_some_iff.1 hs).1
    rw [List.getElem?_set_self hlt] at ht
    obtain rfl := Option.some.inj ht
    rw [hn]
    exact h j s hs
  · rw [List.getElem?_set_ne (Ne.symm hjk)] at ht
    exact h j t ht

theorem wired_turn (ar : Arith) (sha256 : List UInt8 → String) {chain : List StageState} (h : Wired chain) (c : Client) :
    Wired (c.turn ar sha256 chain).1 := by
  rcases Client.turn_chain ar sha256 chain c with heq | ⟨k, r, s, -, hs, heq⟩
  · rwa [heq]
  · rw [heq]
    exact wired_set h hs (StageState.serve_touches ar r).next

/-- two runs of a call are told apart by their ids -/
theorem session_ne {clients : List Client} (h : (clients.map fun c => c.run.session).Nodup) {i j : ℕ} {c d : Client}
    (hc : clients[i]? = some c) (hd : clients[j]? = some d) (hij : i ≠ j) : c.run.session ≠ d.run.session := by
  intro heq
  have hi : (clients.map fun c => c.run.session)[i]? = some c.run.session := by simp [hc]
  have hj : (clients.map fun c => c.run.session)[j]? = some c.run.session := by simp [hd, heq]
  obtain ⟨hilt, hi'⟩ := List.getElem?_eq_some_iff.1 hi
  obtain ⟨hjlt, hj'⟩ := List.getElem?_eq_some_iff.1 hj
  exact hij (List.Nodup.getElem_inj_iff h |>.1 (hi'.trans hj'.symm))

theorem clean_step (ar : Arith) (sha256 : List UInt8 → String) {w : World} {i : ℕ} (h : Clean w) :
    Clean (w.step ar sha256 (.step i)) := by
  cases hc : w.clients[i]? with
  | none =>
    simp only [World.step, hc]
    exact h
  | some c =>
    simp only [World.step, hc]
    have hmem := List.mem_of_getElem? hc
    have hilt : i < w.clients.length := (List.getElem?_eq_some_iff.1 hc).1
    have hrel := h.released c hmem
    have hown := turn_released ar sha256 h.wired hrel
    refine ⟨wired_turn ar sha256 h.wired c, h.strays, ?_, ?_, ?_⟩
    · rw [map_set_same (fun c => c.run.session) hc (by rw [Client.turn_run])]
      exact h.distinct
    · intro d hd
      obtain ⟨j, hj⟩ := List.mem_iff_getElem?.1 hd
      by_cases hji : j = i
      · subst hji
        rw [List.getElem?_set_self hilt] at hj
        obtain rfl := Option.some.inj hj
        rw [Client.turn_run]
        exact hown
      · rw [List.getElem?_set_ne (Ne.symm hji)] at hj
        rw [Client.turn_view_other ar sha256 w.chain hrel.tidy (session_ne h.distinct hj hc hji)]
        exact h.released d (List.mem_of_getElem? hj)
    · intro hret d hd
      have hfin := h.returned hret c hmem
      have hturn : c.turn ar sha256 w.chain = (w.chain, c) := by simp only [Client.turn, hfin]
      rw [hturn] at hd
      rcases List.mem_or_eq_of_mem_set hd with hd | rfl
      · exact h.returned hret d hd
      · exact hfin

theorem clean_giveUp (ar : Arith) (sha256 : List UInt8 → String) {w : World} {i : ℕ} (h : Clean w)
    (ho : Orderly w (.giveUp i)) : Clean (w.step ar sha256 (.giveUp i)) := by
  cases hc : w.clients[i]? with
  | none =>
    simp only [World.step, hc]
    exact h
  | some c =>
    have hidle : c.underWay = none := ho c hc
    have hsame : c.giveUp = c := by
      unfold Client.giveUp
      unfold Client.underWay at hidle
      split at hidle
      · cases hidle
      · cases hidle
      · rfl
    have hset : w.clients.set i c = w.clients := by
      obtain ⟨hlt, hget⟩ := List.getElem?_eq_some_iff.1 hc
      rw [← hget, List.set_getElem_self]
    simp only [World.step, hc, hidle, hsame, hset, Option.toList_none, List.append_nil]
    exact h

theorem clean_other (ar : Arith) (sha256 : List UInt8 → String) {w : World} {k : ℕ} {r : Request} (h : Clean w)
    (ho : Orderly w (.other k r)) : Clean (w.step ar sha256 (.other k r)) := by
  cases hs : w.chain[k]? with
  | none =>
    simp only [World.step, hs]
    exact h
  | some s =>
    simp only [World.step, hs]
    have htouch := StageState.serve_touches ar (s := s) r
    refine ⟨wired_set h.wired hs htouch.next, h.strays, h.distinct, ?_, h.returned⟩
    intro c hc
    have hrel := h.released c hc
    -- forgetting stays forgotten, whether the stranger resets or runs a sequence of its own
    have hkeep : ∀ n, ForgottenBefore n (viewOf c.run.session w.chain) →
        ForgottenBefore n (viewOf c.run.session (w.chain.set k (s.serve ar r).1)) := by
      intro n hn j hj v hv
      simp only [viewOf, List.getElem?_map, Option.map_eq_some_iff] at hv
      obtain ⟨t, ht, rfl⟩ := hv
      by_cases hjk : j = k
      · subst hjk
        have hlt : j < w.chain.length := (List.getElem?_eq_some_iff.1 hs).1
        rw [List.getElem?_set_self hlt] at ht
        obtain rfl := Option.some.inj ht
        have hnone : s.sessions[c.run.session]? = none := hn j hj _ (viewOf_get hs)
        cases r with
        | reset header => exact StageState.serve_reset_none ar header hnone
        | token token position session =>
          refine (htouch.frame _ rfl c.run.session ?_).trans hnone
          exact fun heq => ho.resolve_left (by simp [Request.isReset]) c hc (congrArg some heq.symm)
        | forward header body =>
          refine (htouch.frame _ rfl c.run.session ?_).trans hnone
          exact fun heq => ho.resolve_left (by simp [Request.isReset]) c hc (congrArg some heq.symm)
      · rw [List.getElem?_set_ne (Ne.symm hjk)] at ht
        exact hn j hj _ (viewOf_get ht)
    refine ⟨hrel.tidy, hrel.travels, hrel.kept, hrel.joined, ?_, ?_⟩
    · intro k' r' hp
      exact ⟨(hrel.releasing k' r' hp).1, hkeep k' (hrel.releasing k' r' hp).2⟩
    · intro hp
      have hlen : (viewOf c.run.session (w.chain.set k (s.serve ar r).1)).length =
          (viewOf c.run.session w.chain).length := by simp
      rw [hlen]
      exact hkeep _ (hrel.finished hp)

/-- marking a finished run as taken changes nothing it owes -/
theorem Released.join {views : List View} {c : Client} (h : Released views c) (hp : c.phase = .finished) :
    Released views { c with joined := true } :=
  ⟨h.tidy, h.travels, h.kept, fun _ => hp, h.releasing, h.finished⟩

/-- a failed run that ends the call takes nobody with it when everybody has finished -/
theorem clean_collect_failed {w : World} {i : ℕ} {c : Client} (h : Clean w) (hfin : c.phase = .finished)
    (hjoined : ∀ d ∈ w.clients.set i { c with joined := true }, Released (viewOf d.run.session w.chain) d)
    (hdistinct : ((w.clients.set i { c with joined := true }).map fun c => c.run.session).Nodup)
    (hall : ∀ other ∈ w.clients, other.phase = .finished) :
    Clean { w with
      clients := (w.clients.set i { c with joined := true }).map Client.abort
      strays := w.strays ++ (w.clients.set i { c with joined := true }).filterMap Client.underWay
      returned := true } := by
  have hfinished : ∀ d ∈ w.clients.set i { c with joined := true }, d.phase = .finished := by
    intro d hd
    rcases List.mem_or_eq_of_mem_set hd with hd | rfl
    · exact hall d hd
    · exact hfin
  have habort : (w.clients.set i { c with joined := true }).map Client.abort =
      w.clients.set i { c with joined := true } := by
    conv_rhs => rw [← List.map_id (w.clients.set i { c with joined := true })]
    refine List.map_congr_left fun d hd => ?_
    exact if_pos (hfinished d hd)
  have hidle : (w.clients.set i { c with joined := true }).filterMap Client.underWay = [] := by
    rw [List.filterMap_eq_nil_iff]
    intro d hd
    simp [Client.underWay, hfinished d hd]
  rw [habort, hidle, List.append_nil]
  exact ⟨h.wired, h.strays, hdistinct, hjoined, fun _ => hfinished⟩

theorem clean_collect {w : World} {i : ℕ} (h : Clean w) (ho : Orderly w (.collect i)) : Clean (w.collect i) := by
  unfold World.collect
  cases hc : w.clients[i]? with
  | none => exact h
  | some c =>
    simp only
    split_ifs with hskip
    · exact h
    · simp only [not_or, not_not] at hskip
      obtain ⟨-, hfin, -⟩ := hskip
      have hjoined : ∀ d ∈ w.clients.set i { c with joined := true }, Released (viewOf d.run.session w.chain) d := by
        intro d hd
        rcases List.mem_or_eq_of_mem_set hd with hd | rfl
        · exact h.released d hd
        · exact (h.released c (List.mem_of_getElem? hc)).join hfin
      have hdistinct : ((w.clients.set i { c with joined := true }).map fun c => c.run.session).Nodup := by
        rw [map_set_same (fun c : Client => c.run.session) (b := { c with joined := true }) hc rfl]
        exact h.distinct
      split
      · refine ⟨h.wired, h.strays, hdistinct, hjoined, ?_⟩
        intro hall d hd
        exact (hjoined d hd).joined (List.all_eq_true.1 hall d hd)
      · rename_i hfailed
        have hall := (ho c hc hfin).resolve_left fun hok => by
          unfold Client.succeeded at hok
          split at hok
          · rename_i g hg
            exact hfailed g hg
          · cases hok
        exact clean_collect_failed h hfin hjoined hdistinct hall

theorem clean_act (ar : Arith) (sha256 : List UInt8 → String) {w : World} {a : Act} (h : Clean w) (ho : Orderly w a) :
    Clean (w.step ar sha256 a) := by
  cases a with
  | step i => exact clean_step ar sha256 h
  | giveUp i => exact clean_giveUp ar sha256 h ho
  | stray j =>
    have hidle : w.serveStray ar j = w := by simp [World.serveStray, h.strays]
    simp only [World.step, hidle]
    exact h
  | drop j =>
    have hidle : w.strays.eraseIdx j = w.strays := by rw [h.strays]; rfl
    simp only [World.step, hidle]
    exact h
  | collect i => exact clean_collect h ho
  | other k r => exact clean_other ar sha256 h ho

/-- the runs of a call: distinct ids nobody on the chain has heard of, as `fresh_session` gives them -/
structure Fresh (chain : List StageState) (runs : List Run) : Prop where
  distinct : (runs.map Run.session).Nodup
  issued : ∀ run ∈ runs, ∃ processId n, run.session = freshSession processId n
  unheld : ∀ run ∈ runs, Unheld chain run.session

theorem Fresh.travels {chain : List StageState} {runs : List Run} (h : Fresh chain runs) {run : Run} (hr : run ∈ runs) :
    Travels run.session := by
  obtain ⟨processId, n, heq⟩ := h.issued run hr
  rw [heq]
  exact freshSession_travels processId n

theorem clean_launch {chain : List StageState} {runs : List Run} (hw : Wired chain) (h : Fresh chain runs) :
    Clean (World.launch chain runs) := by
  refine ⟨hw, rfl, ?_, ?_, by simp [World.launch]⟩
  · have hmap : (World.launch chain runs).clients.map (fun c => c.run.session) = runs.map Run.session := by
      simp [World.launch, Client.launch_run]
    rw [hmap]
    exact h.distinct
  · intro c hc
    obtain ⟨run, hrun, rfl⟩ := List.mem_map.1 hc
    rw [Client.launch_run]
    exact released_launch (h.travels hrun) (h.unheld run hrun)

/-- **Sessions are released.** In every schedule in which no run stops waiting for a request that is still being served
and the call takes a failed run only when all have finished, a run that has finished holds no session on any stage, and
once the call has returned none of its runs does. -/
theorem sessions_released (ar : Arith) (sha256 : List UInt8 → String) (chain : List StageState) (hw : Wired chain)
    (runs : List Run) (hf : Fresh chain runs) (schedule : List Act)
    (ho : Along (World.step ar sha256) Orderly (World.launch chain runs) schedule) :
    let w := (World.launch chain runs).runAll ar sha256 schedule
    w.clients.map Client.run = runs ∧
      (∀ c ∈ w.clients, c.phase = .finished → Unheld w.chain c.run.session) ∧
      (w.returned = true → ∀ run ∈ runs, Unheld w.chain run.session) := by
  intro w
  have hclean : Clean w :=
    Along.invariant (fun w _ => Clean w) (fun w _ a h ho => clean_act ar sha256 h ho) schedule
      (World.launch chain runs) [] ho (clean_launch hw hf)
  have hruns : w.clients.map Client.run = runs :=
    (World.runAll_runs ar sha256 _ schedule).trans (World.launch_runs chain runs)
  have hfinished : ∀ c ∈ w.clients, c.phase = .finished → Unheld w.chain c.run.session := by
    intro c hc hp
    exact unheld_of_forgotten (le_of_eq (length_viewOf _ _).symm) ((hclean.released c hc).finished hp)
  refine ⟨hruns, hfinished, ?_⟩
  intro hret run hrun
  rw [← hruns] at hrun
  obtain ⟨c, hc, rfl⟩ := List.mem_map.1 hrun
  exact hfinished c hc (hclean.returned hret c hc)

/-! ## Two prompts, one of which fails -/

namespace Sample

/-- the first prompt names a token outside the vocabulary -/
def prompts : List Run := [⟨freshSession 7 0, [9], 0⟩, ⟨freshSession 7 1, [0], 0⟩]

theorem chain_wired : Wired chain := by
  intro k s hs
  match k, hs with
  | 0, hs => obtain rfl := Option.some.inj hs; decide
  | 1, hs => obtain rfl := Option.some.inj hs; decide
  | k + 2, hs => simp [chain] at hs

theorem prompts_fresh : Fresh chain prompts := by
  refine ⟨by decide, ?_, ?_⟩
  · intro run hr
    rcases List.mem_cons.1 hr with rfl | hr
    · exact ⟨7, 0, rfl⟩
    · obtain rfl := List.mem_singleton.1 hr
      exact ⟨7, 1, rfl⟩
  · intro run _ s hs
    have hempty : s.sessions = ∅ := by
      rcases List.mem_cons.1 hs with rfl | hs
      · rfl
      · obtain rfl := List.mem_singleton.1 hs
        rfl
    rw [hempty]
    simp

/-- both prompts run to their end, one after the other, and the call takes the failed one last -/
def orderly : List Act :=
  [.step 0, .step 0, .step 0, .step 0, .step 1, .step 1, .step 1, .step 1, .step 1, .collect 1, .collect 0]

/-- the first prompt fails while the second is on its way, and takes it down -/
def dropping : List Act :=
  [.step 0, .step 0, .step 1, .step 1, .step 0, .step 0, .collect 0, .drop 0]

end Sample

/-- two prompts, the failed one taken when both have finished -/
theorem orderly_call_released :
    let w := (World.launch Sample.chain Sample.prompts).runAll Sample.arith Protocol.hexLower Sample.orderly
    w.returned = true ∧ ∀ run ∈ Sample.prompts, Unheld w.chain run.session := by
  have horderly : Along (World.step Sample.arith Protocol.hexLower) Orderly (World.launch Sample.chain Sample.prompts)
      Sample.orderly := by decide +kernel
  have hreturned : ((World.launch Sample.chain Sample.prompts).runAll Sample.arith Protocol.hexLower Sample.orderly).returned =
      true := by decide +kernel
  exact ⟨hreturned, (sessions_released Sample.arith Protocol.hexLower Sample.chain Sample.chain_wired Sample.prompts
    Sample.prompts_fresh Sample.orderly horderly).2.2 hreturned⟩

/-- A prompt that fails ends the call, and the prompt that was on its way leaves its session at the head: the call has
returned, nothing is under way any more, and the session is still there. -/
theorem dropped_run_keeps_session :
    let w := (World.launch Sample.chain Sample.prompts).runAll Sample.arith Protocol.hexLower Sample.dropping
    w.returned = true ∧ w.strays = [] ∧ ¬ ∀ run ∈ Sample.prompts, Unheld w.chain run.session := by
  intro w
  have hreturned : w.returned = true ∧ w.strays = [] := by decide +kernel
  refine ⟨hreturned.1, hreturned.2, ?_⟩
  intro h
  have hall : ∀ s ∈ w.chain, s.sessions[freshSession 7 1]? = none :=
    h ⟨freshSession 7 1, [0], 0⟩ (by simp [Sample.prompts])
  revert hall
  decide +kernel

end Hocmesh.Node
