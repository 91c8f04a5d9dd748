/-
`hocmesh-transport`: a download that is kept only if it has the digest asked for.

What has arrived of an interrupted download stays in a `.part` file, and the next call asks the server for the rest. The
server may answer a request with anything. A call that succeeds leaves the bytes of the digest at the destination; one that
fails leaves the destination alone (`Safe`). An answer of 416 removes the part file and starts again, once, so a call makes
two requests at most. After a call that fails on an honest server there is no part file, so the next one succeeds:
`downloads_converge`.
-/
import Hocmesh.Engine.Config
import Hocmesh.Model.Store
import Hocmesh.Transport.Tensors

namespace Hocmesh.Transport

open Hocmesh.Base Hocmesh.Engine Hocmesh.Model

/-! ## Downloading -/

/-- a digest, bare or with the prefix `sha256:` -/
@[irreducible] def normaliseDigest (value : String) : Check String := do
  let trimmed := (trim value).toList
  let bare := if "sha256:".toList.isPrefixOf trimmed then trimmed.drop 7 else trimmed
  bailIf (¬ isSha256 (String.ofList bare)) s!"expected a 64-character hex sha256 digest, got {debugText value}"
  pure (String.ofList (bare.map Char.toLower))

/-- what a completed download turned out to be; its path is the destination -/
structure Downloaded where
  sizeBytes : ℕ
  sha256 : String
  transferred : Bool
  resumedFrom : ℕ
deriving DecidableEq

/-- an answer to a request; a body is `cut` when the connection ends before it does -/
inductive Answer where
  | unreachable
  | response (status : ℕ) (body : List UInt8) (cut : Bool)
deriving DecidableEq

/-- the destination, its part file, and how many requests have been made -/
structure Download where
  destination : Option (List UInt8)
  part : Option (List UInt8)
  asked : ℕ
deriving DecidableEq

section

/- `server` answers the requests in turn, a ranged one from its first byte; `reason` is the text of a status -/
variable (sha256 : List UInt8 → String) (server : ℕ → String → Option ℕ → Answer) (reason : ℕ → String)

/-- what one pass over `download_verified` comes to; it starts again when the range cannot be satisfied -/
inductive Turn where
  | done (outcome : Check Downloaded)
  | again

/-- the body of a response that is a success, written behind what is there or over it -/
def receive (url expected : String) (status : ℕ) (body : List UInt8) (cut : Bool) (disk : Download) :
    Check Downloaded × Download :=
  -- a server that ignores the range sends the whole file, and the part file is truncated
  let resumed := if status = 206 then disk.part.getD [] else []
  let written := resumed ++ body
  if cut then (.error s!"reading the response body from {url}", { disk with part := some written })
  else if sha256 written ≠ expected then
    (.error (s!"{url} did not deliver what was asked for: expected sha256 {expected}, got {sha256 written} " ++
      s!"({written.length} bytes). The partial download has been discarded."), { disk with part := none })
  else (.ok ⟨written.length, sha256 written, true, resumed.length⟩,
    { disk with destination := some written, part := none })

/-- the answer to the request, for a file that is not at the destination yet -/
def respond (url expected : String) (disk : Download) : Turn × Download :=
  let already := disk.part.getD []
  let asked := { disk with asked := disk.asked + 1 }
  match server disk.asked url (if already = [] then none else some already.length) with
  | .unreachable => (.done (.error s!"requesting {url}"), asked)
  | .response status body cut =>
    if status = 416 ∧ already ≠ [] then (.again, { asked with part := none })
    else if 200 ≤ status ∧ status < 300 then
      let (outcome, disk') := receive sha256 url expected status body cut asked
      (.done outcome, disk')
    else (.done (.error s!"{url} returned HTTP {status} {reason status}"), asked)

/-- one pass, with one request at most; operations on files succeed -/
def pass (url expected : String) (disk : Download) : Turn × Download :=
  match disk.destination.filter fun bytes => sha256 bytes = expected with
  | some bytes => (.done (.ok ⟨bytes.length, sha256 bytes, false, bytes.length⟩), disk)
  | none => respond sha256 server reason url expected disk

theorem respond_again {url expected : String} {disk disk' : Download}
    (h : respond sha256 server reason url expected disk = (.again, disk')) :
    disk.part.getD [] ≠ [] ∧ disk' = { disk with part := none, asked := disk.asked + 1 } := by
  unfold respond at h
  dsimp only at h
  split at h
  · cases h
  · split_ifs at h with hagain hsuccess
    · cases h
      exact ⟨hagain.2, rfl⟩
    · cases h
    · cases h

/-- a pass that starts again has removed a part file -/
theorem pass_again {url expected : String} {disk disk' : Download}
    (h : pass sha256 server reason url expected disk = (.again, disk')) :
    disk.part.getD [] ≠ [] ∧ disk' = { disk with part := none, asked := disk.asked + 1 } := by
  unfold pass at h
  split at h
  · cases h
  · exact respond_again sha256 server reason h

/-- a pass without a part file ends -/
theorem pass_fresh (url expected : String) {disk : Download} (h : disk.part.getD [] = []) :
    ∃ outcome disk', pass sha256 server reason url expected disk = (.done outcome, disk') := by
  rcases hpass : pass sha256 server reason url expected disk with ⟨turn, disk'⟩
  cases turn with
  | done outcome => exact ⟨outcome, disk', rfl⟩
  | again => exact absurd h (pass_again sha256 server reason hpass).1

/-- passes until one ends -/
def passes (url expected : String) (disk : Download) : Check Downloaded × Download :=
  match _h : pass sha256 server reason url expected disk with
  | (.done outcome, disk') => (outcome, disk')
  | (.again, disk') => passes url expected disk'
termination_by (disk.part.getD []).length
decreasing_by
  obtain ⟨hpart, rfl⟩ := pass_again sha256 server reason _h
  simpa using List.length_pos_iff.2 hpart

/-- `download_verified`; it calls itself with the same digest, which is normalised once more to the same -/
def downloadVerified (url expectedSha256 : String) (disk : Download) : Check Downloaded × Download :=
  match normaliseDigest expectedSha256 with
  | .error e => (.error e, disk)
  | .ok expected => passes sha256 server reason url expected disk

/-! ## What a call promises -/

/-- what an outcome says about the destination, for a call that started on `disk` -/
def Safe (expected : String) (disk : Download) : Check Downloaded × Download → Prop
  | (.ok done, disk') => done.sha256 = expected ∧
      ∃ bytes, disk'.destination = some bytes ∧ sha256 bytes = expected ∧ bytes.length = done.sizeBytes
  | (.error _, disk') => disk'.destination = disk.destination

/-- the answers of a server that has the file: all of it, or what a range asks for, or that there is no such range -/
inductive HonestAnswer (file : List UInt8) : Option ℕ → Answer → Prop
  | whole (range : Option ℕ) : HonestAnswer file range (.response 200 file false)
  | rest {start : ℕ} (h : start < file.length) : HonestAnswer file (some start) (.response 206 (file.drop start) false)
  | beyond {start : ℕ} (h : file.length ≤ start) (body : List UInt8) (cut : Bool) :
      HonestAnswer file (some start) (.response 416 body cut)

/-- from its request number `n` on, the server is honest about `url` -/
def HonestFrom (n : ℕ) (url : String) (file : List UInt8) : Prop :=
  ∀ k ≥ n, ∀ range, HonestAnswer file range (server k url range)

/-- calls for one destination, one after the other -/
def calls (requests : List (String × String)) (disk : Download) : Download :=
  requests.foldl (fun disk request => (downloadVerified sha256 server reason request.1 request.2 disk).2) disk

end

section

variable {sha256 : List UInt8 → String} {server : ℕ → String → Option ℕ → Answer} {reason : ℕ → String}
  {url expected : String} {disk disk' : Download}

theorem receive_safe (sha256 : List UInt8 → String) (url expected : String) (status : ℕ) (body : List UInt8)
    (cut : Bool) (disk : Download) :
    Safe sha256 expected disk (receive sha256 url expected status body cut disk) := by
  unfold receive
  dsimp only
  generalize hresumed : (if status = 206 then disk.part.getD [] else []) = resumed
  split_ifs with hcut hright
  · exact rfl
  · exact rfl
  · rw [not_not] at hright
    exact ⟨hright, _, rfl, hright, rfl⟩

theorem receive_asked (sha256 : List UInt8 → String) (url expected : String) (status : ℕ) (body : List UInt8)
    (cut : Bool) (disk : Download) :
    (receive sha256 url expected status body cut disk).2.asked = disk.asked := by
  unfold receive
  dsimp only
  split_ifs <;> rfl

/-- a pass that ends is safe, and has made one request at most -/
theorem pass_done {outcome : Check Downloaded} (h : pass sha256 server reason url expected disk = (.done outcome, disk')) :
    Safe sha256 expected disk (outcome, disk') ∧ disk.asked ≤ disk'.asked ∧ disk'.asked ≤ disk.asked + 1 := by
  unfold pass at h
  split at h
  · next bytes hbytes =>
    cases h
    obtain ⟨hthere, hright⟩ := Option.filter_eq_some_iff.1 hbytes
    rw [decide_eq_true_iff] at hright
    exact ⟨⟨hright, bytes, hthere, hright, rfl⟩, le_rfl, Nat.le_succ _⟩
  · unfold respond at h
    dsimp only at h
    split at h
    · cases h
      exact ⟨rfl, Nat.le_succ _, le_rfl⟩
    · next status body cut _ =>
      split_ifs at h with hagain hsuccess
      · cases h
      · have hsafe := receive_safe sha256 url expected status body cut { disk with asked := disk.asked + 1 }
        have hasked := receive_asked sha256 url expected status body cut { disk with asked := disk.asked + 1 }
        obtain ⟨houtcome, rfl⟩ := Prod.mk.inj h
        obtain rfl := Turn.done.inj houtcome
        exact ⟨hsafe, (Nat.le_succ _).trans hasked.ge, hasked.le⟩
      · cases h
        exact ⟨rfl, Nat.le_succ _, le_rfl⟩

theorem passes_of_done {outcome : Check Downloaded}
    (h : pass sha256 server reason url expected disk = (.done outcome, disk')) :
    passes sha256 server reason url expected disk = (outcome, disk') := by
  rw [passes]
  split
  · next heq =>
    rw [h] at heq
    cases heq
    rfl
  · next heq =>
    rw [h] at heq
    cases heq

theorem passes_of_again (h : pass sha256 server reason url expected disk = (.again, disk')) :
    passes sha256 server reason url expected disk = passes sha256 server reason url expected disk' := by
  rw [passes]
  split
  · next heq =>
    rw [h] at heq
    cases heq
  · next heq =>
    rw [h] at heq
    cases heq
    rfl

/-- a call passes once, or twice when the first pass has removed the part file -/
theorem passes_safe (sha256 : List UInt8 → String) (server : ℕ → String → Option ℕ → Answer) (reason : ℕ → String)
    (url expected : String) (disk : Download) : Safe sha256 expected disk (passes sha256 server reason url expected disk) ∧
    disk.asked ≤ (passes sha256 server reason url expected disk).2.asked ∧
    (passes sha256 server reason url expected disk).2.asked ≤ disk.asked + 2 := by
  rcases hpass : pass sha256 server reason url expected disk with ⟨turn, disk₁⟩
  cases turn with
  | done outcome =>
    obtain ⟨hsafe, hasked⟩ := pass_done hpass
    rw [passes_of_done hpass]
    exact ⟨hsafe, hasked.1, hasked.2.trans (Nat.le_succ _)⟩
  | again =>
    obtain ⟨-, rfl⟩ := pass_again sha256 server reason hpass
    have hnone : ({ disk with part := none, asked := disk.asked + 1 } : Download).part.getD [] = [] := rfl
    obtain ⟨outcome, disk₂, hfresh⟩ := pass_fresh sha256 server reason url expected hnone
    obtain ⟨hsafe, hasked⟩ := pass_done hfresh
    rw [passes_of_again hpass, passes_of_done hfresh]
    refine ⟨?_, (Nat.le_succ _).trans hasked.1, hasked.2⟩
    cases outcome with
    | ok done => exact hsafe
    | error e => exact hsafe

/-! ## A server that has the file -/

/-- bytes received whole that have the digest are kept -/
theorem receive_whole {file : List UInt8} (hfile : sha256 file = expected) (url : String) (disk : Download) :
    ∃ done disk', receive sha256 url expected 200 file false disk = (.ok done, disk') := by
  simp [receive, hfile]

/-- bytes received whole are kept or thrown away -/
theorem receive_uncut (sha256 : List UInt8 → String) (url expected : String) (status : ℕ) (body : List UInt8)
    (disk : Download) :
    (∃ done disk', receive sha256 url expected status body false disk = (.ok done, disk')) ∨
      ∃ e disk', receive sha256 url expected status body false disk = (.error e, disk') ∧ disk'.part = none := by
  unfold receive
  dsimp only
  rw [if_neg Bool.false_ne_true]
  split_ifs
  · exact .inr ⟨_, _, rfl, rfl⟩
  · exact .inl ⟨_, _, rfl⟩
  · exact .inr ⟨_, _, rfl, rfl⟩
  · exact .inl ⟨_, _, rfl⟩

/-- without a part file an honest server's answer is the file -/
theorem pass_honest_fresh (reason : ℕ → String) {file : List UInt8} (hfile : sha256 file = expected)
    (hhonest : HonestFrom server disk.asked url file) (hpart : disk.part.getD [] = []) :
    ∃ done disk', pass sha256 server reason url expected disk = (.done (.ok done), disk') := by
  unfold pass
  split
  · exact ⟨_, _, rfl⟩
  · have hanswer := hhonest disk.asked le_rfl none
    unfold respond
    dsimp only
    rw [if_pos hpart]
    generalize server disk.asked url none = answer at hanswer
    cases hanswer with
    | whole =>
      obtain ⟨done, disk', hreceive⟩ := receive_whole hfile url { disk with asked := disk.asked + 1 }
      exact ⟨done, disk', by simp [hreceive]⟩

/-- with an honest server a pass succeeds, or the part file has gone -/
theorem pass_honest (sha256 : List UInt8 → String) (reason : ℕ → String) (expected : String) {file : List UInt8}
    (hhonest : HonestFrom server disk.asked url file) :
    (∃ done disk', pass sha256 server reason url expected disk = (.done (.ok done), disk')) ∨
      ∃ turn disk', pass sha256 server reason url expected disk = (turn, disk') ∧ disk'.part = none := by
  unfold pass
  split
  · exact .inl ⟨_, _, rfl⟩
  · have hanswer := hhonest disk.asked le_rfl (if disk.part.getD [] = [] then none else some (disk.part.getD []).length)
    have hranged : (if disk.part.getD [] = [] then none else some (disk.part.getD []).length) ≠ none →
        disk.part.getD [] ≠ [] := fun h hnil => h (if_pos hnil)
    unfold respond
    dsimp only
    generalize server disk.asked url _ = answer at hanswer
    generalize (if disk.part.getD [] = [] then none else some (disk.part.getD []).length) = range at hanswer hranged
    have hreceived := fun status body =>
      receive_uncut sha256 url expected status body { disk with asked := disk.asked + 1 }
    cases hanswer with
    | whole =>
      rcases hreceived 200 file with ⟨done, disk', h⟩ | ⟨e, disk', h, hgone⟩
      · exact .inl ⟨done, disk', by simp [h]⟩
      · exact .inr ⟨.done (.error e), disk', by simp [h], hgone⟩
    | @rest start hlt =>
      rcases hreceived 206 (file.drop start) with ⟨done, disk', h⟩ | ⟨e, disk', h, hgone⟩
      · exact .inl ⟨done, disk', by simp [h]⟩
      · exact .inr ⟨.done (.error e), disk', by simp [h], hgone⟩
    | beyond _ body cut => exact .inr ⟨.again, _, if_pos ⟨rfl, hranged (Option.some_ne_none _)⟩, rfl⟩

/-- with an honest server a call succeeds, or leaves no part file -/
theorem passes_honest (reason : ℕ → String) {file : List UInt8} (hfile : sha256 file = expected)
    (hhonest : HonestFrom server disk.asked url file) :
    (∃ done disk', passes sha256 server reason url expected disk = (.ok done, disk')) ∨
      (passes sha256 server reason url expected disk).2.part = none := by
  rcases pass_honest sha256 reason expected hhonest with ⟨done, disk', hpass⟩ | ⟨turn, disk', hpass, hgone⟩
  · exact .inl ⟨done, disk', passes_of_done hpass⟩
  · cases turn with
    | done outcome =>
      rw [passes_of_done hpass]
      exact .inr hgone
    | again =>
      obtain ⟨-, rfl⟩ := pass_again sha256 server reason hpass
      have hlater : HonestFrom server (disk.asked + 1) url file := fun k hk => hhonest k (by omega)
      have hnone : ({ disk with part := none, asked := disk.asked + 1 } : Download).part.getD [] = [] := rfl
      obtain ⟨done, disk₂, hfresh⟩ := pass_honest_fresh reason hfile hlater hnone
      exact .inl ⟨done, disk₂, (passes_of_again hpass).trans (passes_of_done hfresh)⟩

theorem downloadVerified_bad {expectedSha256 e : String} (h : normaliseDigest expectedSha256 = .error e) :
    downloadVerified sha256 server reason url expectedSha256 disk = (.error e, disk) := by
  unfold downloadVerified
  rw [h]

theorem downloadVerified_good {expectedSha256 : String} (h : normaliseDigest expectedSha256 = .ok expected) :
    downloadVerified sha256 server reason url expectedSha256 disk = passes sha256 server reason url expected disk := by
  unfold downloadVerified
  rw [h]

/-- **Downloads are safe and converge.** After any calls, answered by a server in any way: a call that succeeds leaves a
file of the digest asked for, one that fails leaves the destination as it was, and it makes two requests at most; and if
the server is honest from then on, this call succeeds or the same call after it does. -/
theorem downloads_converge (requests : List (String × String)) (start : Download) (url expectedSha256 : String) :
    let met := calls sha256 server reason requests start
    let outcome := downloadVerified sha256 server reason url expectedSha256 met
    (∀ done disk', outcome = (.ok done, disk') → normaliseDigest expectedSha256 = .ok done.sha256 ∧
      ∃ bytes, disk'.destination = some bytes ∧ sha256 bytes = done.sha256) ∧
    (∀ e disk', outcome = (.error e, disk') → disk'.destination = met.destination) ∧
    outcome.2.asked ≤ met.asked + 2 ∧
    ∀ file, normaliseDigest expectedSha256 = .ok (sha256 file) → HonestFrom server met.asked url file →
      (∃ done disk', outcome = (.ok done, disk')) ∨
        ∃ done disk', downloadVerified sha256 server reason url expectedSha256 outcome.2 = (.ok done, disk') := by
  intro met outcome
  cases hdigest : normaliseDigest expectedSha256 with
  | error e =>
    have houtcome : outcome = (.error e, met) := downloadVerified_bad hdigest
    rw [houtcome]
    exact ⟨by simp, by simp, Nat.le_add_right _ _, by simp⟩
  | ok expected =>
    have houtcome : outcome = passes sha256 server reason url expected met := downloadVerified_good hdigest
    obtain ⟨hsafe, hmore, hasked⟩ := passes_safe sha256 server reason url expected met
    rw [← houtcome] at hsafe hmore hasked
    refine ⟨fun done disk' h => ?_, fun e disk' h => ?_, hasked, fun file hfile hhonest => ?_⟩
    · rw [h] at hsafe
      obtain ⟨rfl, bytes, hbytes, hright, -⟩ := hsafe
      exact ⟨rfl, bytes, hbytes, hright⟩
    · rw [h] at hsafe
      exact hsafe
    · obtain rfl := Except.ok.inj hfile
      rcases passes_honest reason rfl hhonest with h | hgone
      · exact .inl (houtcome ▸ h)
      · rw [← houtcome] at hgone
        have hlater : HonestFrom server outcome.2.asked url file := fun k hk => hhonest k (le_trans hmore hk)
        obtain ⟨done, disk', hpass⟩ := pass_honest_fresh reason rfl hlater (by rw [hgone]; rfl)
        exact .inr ⟨done, disk', (downloadVerified_good hdigest).trans (passes_of_done hpass)⟩

end

namespace Sample

/-- breaks off the first answer, and has the file [0] from then on -/
def server (k : ℕ) (_url : String) (range : Option ℕ) : Answer :=
  match k, range with
  | 0, _ => .response 200 [5, 5] true
  | _, none => .response 200 [0] false
  | _, some start => if start < 1 then .response 206 ([0].drop start) false else .response 416 [] false

end Sample

theorem downloads_converge_cut :
    let met := calls Sample.digest Sample.server (fun _ => "") [("u", Sample.digest [0])] ⟨some [1], none, 0⟩
    let outcome := downloadVerified Sample.digest Sample.server (fun _ => "") "u" (Sample.digest [0]) met
    (∃ done disk', outcome = (.ok done, disk')) ∨
      ∃ done disk', downloadVerified Sample.digest Sample.server (fun _ => "") "u" (Sample.digest [0]) outcome.2 =
        (.ok done, disk') := by
  have hdigest : normaliseDigest (Sample.digest [0]) = .ok (Sample.digest [0]) := by
    unfold normaliseDigest
    rfl
  have hfirst : pass Sample.digest Sample.server (fun _ => "") "u" (Sample.digest [0]) ⟨some [1], none, 0⟩ =
      (.done (.error "reading the response body from u"), ⟨some [1], some [5, 5], 1⟩) := rfl
  have hmet : calls Sample.digest Sample.server (fun _ => "") [("u", Sample.digest [0])] ⟨some [1], none, 0⟩ =
      ⟨some [1], some [5, 5], 1⟩ := by
    simp only [calls, List.foldl_cons, List.foldl_nil, downloadVerified_good hdigest, passes_of_done hfirst]
  refine (downloads_converge [("u", Sample.digest [0])] ⟨some [1], none, 0⟩ "u" (Sample.digest [0])).2.2.2 [0] hdigest ?_
  intro k hk range
  rw [hmet] at hk
  obtain ⟨k, rfl⟩ : ∃ n, k = n + 1 := Nat.exists_eq_succ_of_ne_zero (Nat.one_le_iff_ne_zero.1 hk)
  cases range with
  | none => exact .whole none
  | some start =>
    change HonestAnswer [0] (some start) (if start < 1 then .response 206 ([0].drop start) false else .response 416 [] false)
    split_ifs with hlt
    · exact .rest hlt
    · exact .beyond (not_lt.1 hlt) [] false

end Hocmesh.Transport
