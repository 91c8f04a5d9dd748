/-
`hocmesh-transport`: choosing a model file in a repository.

`select_gguf` takes the one GGUF file whose name carries the quantisation asked for as a component, and refuses a model
that is split across files. Two things about names get in the way. The scan for a component goes on one byte after an
occurrence that is not one, which stops the program where the quantisation starts with a longer character (`Trips`); and a
part of a split model is only recognised behind `.gguf` and `.GGUF`, so one behind `.Gguf` counts as a whole file.
`chooses_right_iff` says when neither matters.
-/
import Hocmesh.Base.Search
import Hocmesh.Engine.Config

namespace Hocmesh.Transport

open Hocmesh.Base Hocmesh.Engine

/-! ## Names -/

structure LfsRecord where
  oid : String
  size : ℕ
deriving DecidableEq

structure TreeEntry where
  kind : String
  path : String
  size : ℕ
  oid : Option String
  lfs : Option LfsRecord
deriving DecidableEq

/-- `to_ascii_lowercase` -/
def lower (text : List Char) : List Char := text.map Char.toLower

/-- `strip_suffix` -/
def stripSuffix (suffix text : List Char) : Option (List Char) :=
  if suffix <:+ text then some (text.take (text.length - suffix.length)) else none

namespace TreeEntry

variable (entry : TreeEntry)

def isFile : Bool := entry.kind = "file"

/-- the file name without directories -/
def name : List Char := (entry.path.toList.reverse.takeWhile (· ≠ '/')).reverse

def isGguf : Bool := ".gguf".toList <:+ lower entry.name

end TreeEntry

/-- the end of the name, or one of the characters between components -/
def boundary : Option Char → Bool
  | none => true
  | some c => c = '-' || c = '.'

/-- the occurrence of `want` between these is a component -/
def delimited (want before after : List Char) : Bool := boundary before.getLast? && boundary (after.drop want.length).head?

/-- the loop of `quantisation_matches` over what is left of the stem; `none` when the program stops. Every round but the last
leaves one character behind at least. -/
def scan (want : List Char) : ℕ → List Char → List Char → Option Bool
  | 0, _, _ => some false
  | rounds + 1, passed, rest =>
    match find want rest with
    | none => some false
    | some (before, []) => some (delimited want (passed ++ before) [])
    | some (before, first :: after) =>
      if delimited want (passed ++ before) (first :: after) then some true
      -- the next byte is inside a character that has several, and a slice of a text cannot start there
      else if first.utf8Size = 1 then scan want rounds (passed ++ before ++ [first]) after
      else none

/-- the quantisation as it is looked for -/
def wanted (want : String) : List Char := lower (trim want).toList

/-- the name without its extension, in lower case -/
def stem (name : List Char) : List Char := (stripSuffix ".gguf".toList (lower name)).getD (lower name)

def quantisationMatches (name : List Char) (want : String) : Option Bool :=
  if wanted want = [] then some false else scan (wanted want) ((stem name).length + 1) [] (stem name)

/-- what `shard_of` reads off a name without its extension -/
def shardOfStem (stem : List Char) : Option (ℕ × ℕ) := do
  let (head, total) ← rsplitOnce "-of-".toList stem
  let (_, part) ← rsplitOnce ['-'] head
  if part = [] ∨ total = [] then none
  else do
    let part ← parseU32 part
    let total ← parseU32 total
    some (part, total)

def shardOf (name : List Char) : Option (ℕ × ℕ) :=
  shardOfStem (((stripSuffix ".gguf".toList name).or (stripSuffix ".GGUF".toList name)).getD name)

def describe (entries : List TreeEntry) : String := ", ".intercalate (entries.map fun entry => String.ofList entry.name)

/-! ## The choice -/

/-- `filter` by the quantisation -/
def keepMatching (want : String) : List TreeEntry → Option (List TreeEntry)
  | [] => some []
  | entry :: rest => do
    let fits ← quantisationMatches entry.name want
    let kept ← keepMatching want rest
    some (if fits then entry :: kept else kept)

/-- `any`, which stops at the first that matches -/
def anyMatches (want : String) : List TreeEntry → Option Bool
  | [] => some false
  | entry :: rest => do
    let fits ← quantisationMatches entry.name want
    if fits then some true else anyMatches want rest

/-- the GGUF files of a listing, by path -/
def candidates (entries : List TreeEntry) : List TreeEntry :=
  (entries.filter fun entry => entry.isFile && entry.isGguf).mergeSort fun a b => a.path ≤ b.path

def wholeFiles (entries : List TreeEntry) : List TreeEntry :=
  (candidates entries).filter fun entry => (shardOf entry.name).isNone

def shardedFiles (entries : List TreeEntry) : List TreeEntry :=
  (candidates entries).filter fun entry => (shardOf entry.name).isSome

/-- `select_gguf`; `none` when the program stops -/
def selectGguf (entries : List TreeEntry) (quantisation : Option String) : Option (Check TreeEntry) :=
  if candidates entries = [] then some (.error "that repository publishes no .gguf file at this revision")
  else do
    let whole := wholeFiles entries
    let sharded := shardedFiles entries
    let matching ← match quantisation with
      | some want => keepMatching want whole
      | none => some whole
    match matching with
    | [entry] => some (.ok entry)
    | [] => do
      let shardedMatch ← match quantisation with
        | some want => anyMatches want sharded
        | none => some (!sharded.isEmpty)
      if whole = [] ∨ shardedMatch then
        some (.error (s!"the only matching weights are split across several files ({sharded.length}), which hocMESH " ++
          s!"cannot import yet; pick a quantisation that ships as one file. Available: {describe (candidates entries)}"))
      else
        some (.error ("no single-file .gguf matches quantisation " ++ debugText (quantisation.getD "") ++
          s!". Available: {describe whole}"))
    | _ => some (.error (s!"several .gguf files match; pass --quantisation to choose one. Available: " ++ describe whole))

/-! ## What a name says -/

/-- `want` occurs in the text as a component -/
def component (want text : List Char) : Bool :=
  (List.range (text.length + 1)).any fun i => want <+: text.drop i && delimited want (text.take i) (text.drop i)

/-- the name carries the quantisation; no quantisation is a component of nothing -/
def names (want : String) (name : List Char) : Bool := wanted want ≠ [] && component (wanted want) (stem name)

/-- one part of a split model, whatever the case of the extension -/
def isPart (name : List Char) : Bool := (shardOfStem (name.take (name.length - ".gguf".length))).isSome

/-- the quantisation starts with a character of several bytes, and its first occurrence is not a component -/
def trips (want : String) (name : List Char) : Bool :=
  wanted want ≠ [] && match find (wanted want) (stem name) with
    | some (before, first :: after) => first.utf8Size ≠ 1 && !delimited (wanted want) before (first :: after)
    | _ => false

theorem component_iff (want text : List Char) : component want text = true ↔
    ∃ before after, text = before ++ after ∧ want <+: after ∧ delimited want before after = true := by
  simp only [component, List.any_eq_true, List.mem_range, Bool.and_eq_true, decide_eq_true_eq]
  constructor
  · rintro ⟨i, -, hleads, hdelimited⟩
    exact ⟨text.take i, text.drop i, (List.take_append_drop i text).symm, hleads, hdelimited⟩
  · rintro ⟨before, after, rfl, hleads, hdelimited⟩
    refine ⟨before.length, by rw [List.length_append]; omega, ?_⟩
    rw [List.drop_left, List.take_left]
    exact ⟨hleads, hdelimited⟩

/-- the first character of an occurrence is that of the text looked for -/
theorem head_of_prefix {c first : Char} {want after : List Char} (h : c :: want <+: first :: after) : first = c :=
  (List.cons_prefix_cons.1 h).1.symm

/-- where the characters start with one of one byte, the scan finds a component if there is one -/
theorem scan_short {c : Char} (want : List Char) (hbyte : c.utf8Size = 1) {rounds : ℕ} (passed rest : List Char)
    (hrounds : rest.length < rounds) :
    ∃ fits, scan (c :: want) rounds passed rest = some fits ∧ (fits = true ↔ ∃ before after, rest = before ++ after ∧
      c :: want <+: after ∧ delimited (c :: want) (passed ++ before) after = true) := by
  induction rounds generalizing passed rest with
  | zero => omega
  | succ rounds ih =>
    rw [scan]
    rcases hfind : find (c :: want) rest with _ | ⟨before, _ | ⟨first, after⟩⟩
    · refine ⟨false, rfl, iff_of_false Bool.false_ne_true ?_⟩
      rintro ⟨before, after, hrest, hleads, -⟩
      obtain ⟨before', after', hfound, -⟩ := exists_find hrest hleads
      rw [hfind] at hfound
      cases hfound
    · exact absurd (List.prefix_nil.1 (find_eq_some hfind).2) (List.cons_ne_nil _ _)
    · obtain ⟨rfl, hleads⟩ := find_eq_some hfind
      obtain rfl := head_of_prefix hleads
      dsimp only
      by_cases hdelimited : delimited (first :: want) (passed ++ before) (first :: after) = true
      · rw [if_pos hdelimited]
        exact ⟨true, rfl, iff_of_true rfl ⟨before, first :: after, rfl, hleads, hdelimited⟩⟩
      · rw [if_neg hdelimited, if_pos hbyte]
        have hshorter : after.length < rounds := by
          rw [List.length_append, List.length_cons] at hrounds
          omega
        obtain ⟨fits, hscan, hfits⟩ := ih (passed ++ before ++ [first]) after hshorter
        refine ⟨fits, hscan, hfits.trans ⟨?_, ?_⟩⟩
        · rintro ⟨before', after', rfl, hleads', hdelimited'⟩
          refine ⟨before ++ first :: before', after', by simp, hleads', ?_⟩
          simpa using hdelimited'
        · rintro ⟨before', after', hrest, hleads', hdelimited'⟩
          -- the first occurrence is not a component, so this one starts behind its first character
          obtain ⟨before₁, after₁, hfound, hle⟩ := exists_find hrest hleads'
          rw [hfind] at hfound
          obtain ⟨rfl, rfl⟩ := Prod.mk.inj (Option.some.inj hfound)
          obtain ⟨tail, rfl⟩ : before <+: before' := by
            rw [List.prefix_iff_eq_take]
            have := congrArg (List.take before.length) hrest
            rw [List.take_left, List.take_append_of_le_length hle] at this
            exact this
          rw [List.append_assoc, List.append_cancel_left_eq] at hrest
          cases tail with
          | nil =>
            rw [List.nil_append] at hrest
            rw [List.append_nil, ← hrest] at hdelimited'
            exact absurd hdelimited' hdelimited
          | cons d tail =>
            rw [List.cons_append, List.cons.injEq] at hrest
            obtain ⟨rfl, rfl⟩ := hrest
            exact ⟨tail, after', rfl, hleads', by simpa using hdelimited'⟩

/-- where they start with a longer one, the first occurrence decides -/
theorem scan_long {c : Char} {want : List Char} (hbytes : c.utf8Size ≠ 1) (rounds : ℕ) (passed rest : List Char) :
    scan (c :: want) (rounds + 1) passed rest = match find (c :: want) rest with
      | none => some false
      | some (before, after) => if delimited (c :: want) (passed ++ before) after then some true else none := by
  rw [scan]
  rcases hfind : find (c :: want) rest with _ | ⟨before, _ | ⟨first, after⟩⟩
  · rfl
  · exact absurd (List.prefix_nil.1 (find_eq_some hfind).2) (List.cons_ne_nil _ _)
  · obtain rfl := head_of_prefix (find_eq_some hfind).2
    dsimp only
    rw [if_neg hbytes]

/-- without an occurrence there is no component -/
theorem component_of_none {want text : List Char} (h : find want text = none) : component want text = false := by
  rw [Bool.eq_false_iff, Ne, component_iff]
  rintro ⟨before, after, htext, hleads, -⟩
  obtain ⟨before', after', hfound, -⟩ := exists_find htext hleads
  rw [h] at hfound
  cases hfound

/-- **Matching.** The comparison of a name with the quantisation stops where the name `trips`, and says otherwise whether
the name carries the quantisation. -/
theorem quantisationMatches_eq (name : List Char) (want : String) :
    quantisationMatches name want = if trips want name then none else some (names want name) := by
  unfold quantisationMatches trips names
  cases hwant : wanted want with
  | nil => simp
  | cons c tail =>
    have hne : decide (c :: tail ≠ []) = true := by simp
    rw [if_neg (List.cons_ne_nil _ _), hne, Bool.true_and, Bool.true_and]
    by_cases hbyte : c.utf8Size = 1
    · obtain ⟨fits, hscan, hfits⟩ := scan_short tail hbyte [] (stem name) (Nat.lt_succ_self _)
      simp only [List.nil_append] at hfits
      have hcomponent : fits = component (c :: tail) (stem name) := Bool.eq_iff_iff.2 (hfits.trans (component_iff _ _).symm)
      rw [hscan, hcomponent, if_neg]
      rcases hfind : find (c :: tail) (stem name) with _ | ⟨before, _ | ⟨first, after⟩⟩
      · simp
      · simp
      · obtain rfl := head_of_prefix (find_eq_some hfind).2
        simp [hbyte]
    · rw [scan_long hbyte]
      rcases hfind : find (c :: tail) (stem name) with _ | ⟨before, _ | ⟨first, after⟩⟩
      · simp [component_of_none hfind]
      · exact absurd (List.prefix_nil.1 (find_eq_some hfind).2) (List.cons_ne_nil _ _)
      · obtain ⟨hstem, hleads⟩ := find_eq_some hfind
        obtain rfl := head_of_prefix hleads
        by_cases hdelimited : delimited (first :: tail) before (first :: after) = true
        · have hcomponent : component (first :: tail) (stem name) = true :=
            (component_iff _ _).2 ⟨before, first :: after, hstem, hleads, hdelimited⟩
          simp [hdelimited, hcomponent]
        · simp [hdelimited, hbyte]

/-! ## Parts -/

theorem parseU32_last {text : List Char} {c : Char} (hlast : text.getLast? = some c) (hdigit : c.isDigit = false) :
    parseU32 text = none := by
  have hsome : ∀ digits : List Char, digits.getLast? = some c → ¬ (digits ≠ [] ∧ digits.all Char.isDigit = true) := by
    rintro digits hdigits ⟨-, hall⟩
    rw [List.all_eq_true.1 hall c (List.mem_of_getLast? hdigits)] at hdigit
    cases hdigit
  unfold parseU32
  dsimp only
  split
  · next rest =>
    by_cases hrest : rest = []
    · rw [if_neg (by simp [hrest])]
    · rw [List.getLast?_cons, List.getLast?_eq_some_getLast hrest, Option.getD_some] at hlast
      rw [if_neg (hsome rest (by rw [List.getLast?_eq_some_getLast hrest]; exact hlast))]
  · rw [if_neg (hsome _ hlast)]

/-- a text that does not end in a digit is no part -/
theorem shardOfStem_last {text : List Char} {c : Char} (hlast : text.getLast? = some c) (hdigit : c.isDigit = false) :
    shardOfStem text = none := by
  rw [Option.eq_none_iff_forall_ne_some]
  intro shard hshard
  simp only [shardOfStem, Option.bind_eq_bind, Option.bind_eq_some_iff] at hshard
  obtain ⟨⟨head, total⟩, hof, ⟨front, part⟩, -, hshard⟩ := hshard
  split_ifs at hshard with hempty
  simp only [Option.bind_eq_some_iff] at hshard
  obtain ⟨_, -, n, hn, -⟩ := hshard
  have htotal : total ≠ [] := fun h => hempty (.inr h)
  have hend : total.getLast? = some c := by
    rwa [rsplitOnce_eq_some hof, List.getLast?_append_of_ne_nil _ htotal] at hlast
  rw [parseU32_last hend hdigit] at hn
  cases hn

theorem isDigit_of_toLower {c : Char} (h : c.toLower = 'f') : c.isDigit = false := by
  by_contra hdigit
  simp only [Char.isDigit, Bool.not_eq_false, Bool.and_eq_true, decide_eq_true_eq] at hdigit
  have hsame : c.toLower = c := by
    refine dif_neg fun hupper => ?_
    have h57 : c.val.toNat ≤ 57 := UInt32.le_iff_toNat_le.1 hdigit.2
    have h65 : 65 ≤ c.val.toNat := UInt32.le_iff_toNat_le.1 hupper.1
    omega
  rw [hsame] at h
  subst h
  exact absurd hdigit.2 (by decide)

/-- what `shard_of` calls a part of a GGUF model is one -/
theorem isPart_of_shardOf {entry : TreeEntry} (hgguf : entry.isGguf = true) (h : (shardOf entry.name).isSome = true) :
    isPart entry.name = true := by
  unfold shardOf stripSuffix at h
  unfold isPart
  have hfive : ".gguf".toList.length = ".gguf".length ∧ ".GGUF".toList.length = ".gguf".length := by decide
  rw [hfive.1, hfive.2] at h
  split_ifs at h
  · exact h
  · exact h
  · exact h
  · -- behind any other case of the extension `shard_of` reads the extension too
    obtain ⟨front, hfront⟩ : ".gguf".toList <:+ lower entry.name := of_decide_eq_true hgguf
    have hlast : (lower entry.name).getLast? = some 'f' := by
      rw [← hfront, List.getLast?_append_of_ne_nil _ (by decide)]
      rfl
    rw [lower, List.getLast?_map, Option.map_eq_some_iff] at hlast
    obtain ⟨c, hc, hf⟩ := hlast
    rw [Option.or_none, Option.getD_none, shardOfStem_last hc (isDigit_of_toLower hf)] at h
    cases h

/-! ## The right file -/

theorem keepMatching_eq (want : String) (l : List TreeEntry) : keepMatching want l =
    if l.any fun entry => trips want entry.name then none else some (l.filter fun entry => names want entry.name) := by
  induction l with
  | nil => rfl
  | cons entry rest ih =>
    rw [keepMatching, quantisationMatches_eq, ih]
    by_cases htrips : trips want entry.name = true
    · simp [htrips]
    · by_cases hrest : (rest.any fun entry => trips want entry.name) = true
      · simp [htrips, hrest]
      · by_cases hnames : names want entry.name = true
        · simp [htrips, hrest, hnames]
        · simp [htrips, hrest, hnames]

/-- the first file that trips or carries the quantisation decides -/
theorem anyMatches_eq (want : String) (l : List TreeEntry) : anyMatches want l =
    match l.find? fun entry => trips want entry.name || names want entry.name with
    | some entry => if trips want entry.name then none else some true
    | none => some false := by
  induction l with
  | nil => rfl
  | cons entry rest ih =>
    rw [anyMatches, quantisationMatches_eq, ih]
    by_cases htrips : trips want entry.name = true
    · simp [htrips]
    · by_cases hnames : names want entry.name = true
      · simp [htrips, hnames]
      · simp [htrips, hnames]

/-- the GGUF files that are not one part of a split model and carry the quantisation -/
def rightFiles (entries : List TreeEntry) (want : String) : List TreeEntry :=
  entries.filter fun entry => entry.isFile && entry.isGguf && !isPart entry.name && names want entry.name

/-- the parts that carry the quantisation and are read as whole files -/
def misread (entries : List TreeEntry) (want : String) : List TreeEntry :=
  (wholeFiles entries).filter fun entry => isPart entry.name && names want entry.name

/-- the choice does not stop, and it is the one right file when there is one and an error otherwise -/
def ChoosesRight (entries : List TreeEntry) (want : String) : Prop :=
  selectGguf entries (some want) ≠ none ∧
    ∀ entry, selectGguf entries (some want) = some (.ok entry) ↔ rightFiles entries want = [entry]

/-- the files `select_gguf` chooses from -/
def matchingFiles (entries : List TreeEntry) (want : String) : List TreeEntry :=
  (wholeFiles entries).filter fun entry => names want entry.name

/-- a name trips that is compared: one of a whole file, or of a part when no whole file matches and, by path, no part before
it does -/
def Stops (entries : List TreeEntry) (want : String) : Prop :=
  (∃ file ∈ wholeFiles entries, trips want file.name = true) ∨ matchingFiles entries want = [] ∧
    ∃ file, (shardedFiles entries).find? (fun file => trips want file.name || names want file.name) = some file ∧
      trips want file.name = true

/-- how a choice ends -/
theorem selectGguf_cases (entries : List TreeEntry) (want : String) :
    (selectGguf entries (some want) = none ∧ Stops entries want) ∨ ¬ Stops entries want ∧
      ((∃ entry, selectGguf entries (some want) = some (.ok entry) ∧ matchingFiles entries want = [entry]) ∨
        (∃ msg, selectGguf entries (some want) = some (.error msg)) ∧ ∀ entry, matchingFiles entries want ≠ [entry]) := by
  unfold selectGguf
  by_cases hempty : candidates entries = []
  · have hwhole : wholeFiles entries = [] := by rw [wholeFiles, hempty, List.filter_nil]
    have hsharded : shardedFiles entries = [] := by rw [shardedFiles, hempty, List.filter_nil]
    rw [if_pos hempty]
    refine .inr ⟨?_, .inr ⟨⟨_, rfl⟩, ?_⟩⟩
    · simp [Stops, hwhole, hsharded]
    · simp [matchingFiles, hwhole]
  rw [if_neg hempty]
  dsimp only
  rw [keepMatching_eq]
  by_cases htrips : ((wholeFiles entries).any fun file => trips want file.name) = true
  · rw [if_pos htrips]
    exact .inl ⟨rfl, .inl (List.any_eq_true.1 htrips)⟩
  have hwhole : ¬ ∃ file ∈ wholeFiles entries, trips want file.name = true := fun h => htrips (List.any_eq_true.2 h)
  have hfold : (wholeFiles entries).filter (fun entry => names want entry.name) = matchingFiles entries want := rfl
  rw [if_neg htrips, hfold]
  rcases hmatching : matchingFiles entries want with _ | ⟨entry, _ | ⟨second, rest⟩⟩
  · dsimp only [Option.bind_eq_bind, Option.bind_some]
    rw [anyMatches_eq]
    cases hfind : (shardedFiles entries).find? fun file => trips want file.name || names want file.name with
    | none =>
      refine .inr ⟨?_, .inr ⟨?_, by simp⟩⟩
      · rintro (h | ⟨-, file, hfile, -⟩)
        · exact hwhole h
        · rw [hfind] at hfile
          cases hfile
      · dsimp only [Option.bind_some]
        by_cases hnone : wholeFiles entries = []
        · exact ⟨_, if_pos (.inl hnone)⟩
        · exact ⟨_, if_neg (by simpa using hnone)⟩
    | some file =>
      by_cases htrip : trips want file.name = true
      · refine .inl ⟨?_, .inr ⟨hmatching, file, hfind, htrip⟩⟩
        simp [htrip]
      · dsimp only
        rw [if_neg htrip]
        dsimp only [Option.bind_some]
        refine .inr ⟨?_, .inr ⟨⟨_, if_pos (.inr rfl)⟩, by simp⟩⟩
        rintro (h | ⟨-, file', hfile', htrip'⟩)
        · exact hwhole h
        · rw [hfind] at hfile'
          obtain rfl := Option.some.inj hfile'
          exact htrip htrip'
  · refine .inr ⟨?_, .inl ⟨entry, rfl, rfl⟩⟩
    rintro (h | ⟨hnone, -⟩)
    · exact hwhole h
    · rw [hmatching] at hnone
      cases hnone
  · refine .inr ⟨?_, .inr ⟨⟨_, rfl⟩, by simp⟩⟩
    rintro (h | ⟨hnone, -⟩)
    · exact hwhole h
    · rw [hmatching] at hnone
      cases hnone

/-! ## Misread parts -/

/-- the files chosen from are the right ones and the misread parts -/
theorem matchingFiles_perm (entries : List TreeEntry) (want : String) :
    (matchingFiles entries want).Perm (rightFiles entries want ++ misread entries want) := by
  have hsplit := (List.filter_append_perm (fun file => !isPart file.name) (matchingFiles entries want)).symm
  refine hsplit.trans (List.Perm.append ?_ (List.Perm.of_eq ?_))
  · have hsorted := List.mergeSort_perm (entries.filter fun entry => entry.isFile && entry.isGguf)
      (fun a b => decide (a.path ≤ b.path))
    rw [matchingFiles, wholeFiles, List.filter_filter, List.filter_filter]
    refine (hsorted.filter _).trans (List.Perm.of_eq ?_)
    rw [List.filter_filter, rightFiles]
    refine List.filter_congr fun entry _ => ?_
    have hwhole : entry.isGguf = true → isPart entry.name = false → (shardOf entry.name).isNone = true := by
      intro hgguf hpart
      rw [← Option.not_isSome, Bool.not_eq_true', Bool.eq_false_iff]
      exact fun hsome => Bool.eq_false_iff.1 hpart (isPart_of_shardOf hgguf hsome)
    cases hgguf : entry.isGguf <;> cases hpart : isPart entry.name <;> simp [hgguf, hpart, hwhole, Bool.and_comm]
  · rw [matchingFiles, misread, List.filter_filter]
    refine List.filter_congr fun entry _ => ?_
    rw [Bool.not_not]

/-- **The right model file is chosen.** The choice does not stop and is right exactly when no name trips that is compared,
and no part is misread that carries the quantisation, or what is misread makes no difference: two right files or more, or
none and two misread parts or more, are refused either way. -/
theorem chooses_right_iff (entries : List TreeEntry) (want : String) :
    ChoosesRight entries want ↔ ¬ Stops entries want ∧ (misread entries want = [] ∨ 2 ≤ (rightFiles entries want).length ∨
      rightFiles entries want = [] ∧ 2 ≤ (misread entries want).length) := by
  have hperm := matchingFiles_perm entries want
  have hlength := hperm.length_eq
  rw [List.length_append] at hlength
  unfold ChoosesRight
  rcases selectGguf_cases entries want with ⟨hnone, hstops⟩ | ⟨hruns, ⟨entry, hok, hone⟩ | ⟨⟨msg, herror⟩, hnot⟩⟩
  · exact iff_of_false (fun h => h.1 hnone) fun h => h.1 hstops
  · -- the one file chosen is right, or it is the one misread part
    rw [hok]
    simp only [ne_eq, reduceCtorEq, not_false_eq_true, true_and, Option.some.injEq, Except.ok.injEq, hruns]
    rw [hone, List.length_singleton] at hlength
    constructor
    · intro h
      refine .inl (List.eq_nil_of_length_eq_zero ?_)
      rw [(h entry).1 rfl, List.length_singleton] at hlength
      omega
    · rintro (hnone | htwo | ⟨-, htwo⟩)
      · rw [hone, hnone, List.append_nil] at hperm
        have hright : rightFiles entries want = [entry] := List.perm_singleton.1 hperm.symm
        simp [hright]
      · omega
      · omega
  · rw [herror]
    simp only [ne_eq, reduceCtorEq, not_false_eq_true, true_and, Option.some.injEq, false_iff, hruns]
    have hmany : (matchingFiles entries want).length ≠ 1 := by
      intro h
      obtain ⟨entry, hentry⟩ := List.length_eq_one_iff.1 h
      exact hnot entry hentry
    constructor
    · intro h
      have hright : (rightFiles entries want).length ≠ 1 := by
        intro hone
        obtain ⟨entry, hentry⟩ := List.length_eq_one_iff.1 hone
        exact h entry hentry
      rw [← List.length_eq_zero_iff, ← List.length_eq_zero_iff]
      omega
    · rintro hcases entry hentry
      rw [hentry, List.length_singleton] at hlength
      rcases hcases with hnone | htwo | ⟨hnone, -⟩
      · rw [hnone, List.length_nil] at hlength
        omega
      · rw [hentry, List.length_singleton] at htwo
        omega
      · rw [hnone] at hentry
        cases hentry

namespace Sample

def gguf (path : String) : TreeEntry := ⟨"file", path, 1, none, none⟩

end Sample

theorem candidates_singleton (entry : TreeEntry) (h : (entry.isFile && entry.isGguf) = true) :
    candidates [entry] = [entry] := by
  simp [candidates, h]

/-- a name that trips, and a part that is taken for a whole file -/
theorem wrong_choices : ¬ ChoosesRight [Sample.gguf "modèle.gguf"] "è" ∧
    ¬ ChoosesRight [Sample.gguf "m-q4-00001-of-00002.Gguf"] "q4" := by
  have hstops : selectGguf [Sample.gguf "modèle.gguf"] (some "è") = none := by
    simp only [selectGguf, wholeFiles, shardedFiles, candidates_singleton (Sample.gguf "modèle.gguf") (by decide)]
    decide
  have hpart : selectGguf [Sample.gguf "m-q4-00001-of-00002.Gguf"] (some "q4") =
      some (.ok (Sample.gguf "m-q4-00001-of-00002.Gguf")) := by
    simp only [selectGguf, wholeFiles, shardedFiles,
      candidates_singleton (Sample.gguf "m-q4-00001-of-00002.Gguf") (by decide)]
    rfl
  have hright : rightFiles [Sample.gguf "m-q4-00001-of-00002.Gguf"] "q4" = [] := by
    decide
  refine ⟨fun h => h.1 hstops, fun h => ?_⟩
  have hone := (h.2 _).1 hpart
  rw [hright] at hone
  cases hone

end Hocmesh.Transport
