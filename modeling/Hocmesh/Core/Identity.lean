/-
The account key of a home (`hocmesh-core/src/identity.rs`): `load_or_create_sealed`, `import_backup`, and the files they write.

A home is its files by name. A key is kept while `identity.json` or a file it was displaced to opens to it under some
passphrase. A displaced file is named after the second it was displaced in, and a rename replaces what is there: two forced
imports within one second destroy a key (`displaced_key_lost`). `no_key_destroyed` says that nothing else does.

The third-party crates are `Linked`. Sealing opens again under the passphrase it was made with (`unsealKey_sealKey`); that is
all that is used of it.
-/
import Hocmesh.Base.Along
import Hocmesh.Protocol.Crypto

namespace Hocmesh.Core.Identity

open Hocmesh.Base Hocmesh.Protocol

/-! ## Keys -/

/-- the linked primitives: `argon2`, `chacha20poly1305`, `base64`, `ed25519_dalek` -/
structure Linked where
  crypto : Crypto
  /-- `hash_password_into`: a passphrase and a salt -/
  argon2 : List UInt8 → List UInt8 → Option (List UInt8)
  /-- a derived key, a nonce and what is encrypted -/
  encrypt : List UInt8 → List UInt8 → List UInt8 → Option (List UInt8)
  decrypt : List UInt8 → List UInt8 → List UInt8 → Option (List UInt8)
  /-- `STANDARD_NO_PAD.encode` -/
  encode : List UInt8 → String
  /-- `SigningKey::from_bytes(..).verifying_key()` -/
  verifyingKey : List UInt8 → List UInt8

structure Linked.Lawful (l : Linked) : Prop where
  decode_encode : ∀ bytes, l.crypto.decode (l.encode bytes) = some bytes
  decrypt_encrypt : ∀ key nonce plain cipher, l.encrypt key nonce plain = some cipher → l.decrypt key nonce cipher = some plain

/-- the 32 bytes of a signing key -/
abbrev SecretKey : Type := { bytes : List UInt8 // bytes.length = 32 }

/-- what one call draws at random -/
structure Draw where
  key : SecretKey
  salt : List UInt8
  nonce : List UInt8
  nonce_length : nonce.length = 24

structure SealedSecret where
  kdf : String
  saltB64 : String
  nonceB64 : String
  ciphertextB64 : String
deriving DecidableEq

structure StoredIdentity where
  version : ℕ
  secretKeyB64 : Option String
  sealed_ : Option SealedSecret
deriving DecidableEq

/-- what a file holds: an identity, or something that does not parse as one -/
inductive Content where
  | identity (stored : StoredIdentity)
  | unreadable
deriving DecidableEq

/-- what an import reads of an `IdentityBackup` -/
structure IdentityBackup where
  nodeId : String
  publicKeyB64 : String
  sealed_ : SealedSecret

namespace Linked

variable (l : Linked)

def decodeB64 (s : String) : Check (List UInt8) := orBail (l.crypto.decode s) "invalid base64"

def deriveKey (passphrase : String) (salt : List UInt8) : Check (List UInt8) :=
  orBail (l.argon2 (bytesOf passphrase) salt) "deriving the identity key failed"

def sealKey (key : SecretKey) (passphrase : String) (draw : Draw) : Check StoredIdentity := do
  let derived ← l.deriveKey passphrase draw.salt
  let ciphertext ← orBail (l.encrypt derived draw.nonce key.1) "sealing the identity failed"
  .ok ⟨2, none, some ⟨"argon2id", l.encode draw.salt, l.encode draw.nonce, l.encode ciphertext⟩⟩

def keyFromBytes (bytes : List UInt8) : Check SecretKey :=
  if h : bytes.length = 32 then .ok ⟨bytes, h⟩ else .error "identity secret key must be 32 bytes"

def unsealKey (s : SealedSecret) (passphrase : String) : Check SecretKey := do
  bailIf (s.kdf ≠ "argon2id") ("unsupported identity key derivation " ++ s.kdf)
  let salt ← l.decodeB64 s.saltB64
  let nonce ← l.decodeB64 s.nonceB64
  bailIf (nonce.length ≠ 24) "sealed identity carries a malformed nonce"
  let derived ← l.deriveKey passphrase salt
  let ciphertext ← l.decodeB64 s.ciphertextB64
  let plain ← orBail (l.decrypt derived nonce ciphertext) "the identity passphrase is wrong, or the file was altered"
  keyFromBytes plain

def openSecret (s : StoredIdentity) (passphrase : Option String) : Check SecretKey :=
  match s.sealed_ with
  | some sealed_ => do
    bailIf (s.version ≠ 2) ("unsupported sealed identity file version " ++ toString s.version)
    let p ← orBail passphrase "this identity is sealed; set HOCMESH_IDENTITY_PASSPHRASE to open it"
    l.unsealKey sealed_ p
  | none => do
    bailIf (s.version ≠ 1) ("unsupported identity file version " ++ toString s.version)
    let b64 ← orBail s.secretKeyB64 "identity file carries no key"
    keyFromBytes (← l.decodeB64 b64)

/-- reading a file and opening what it holds -/
def openContent (content : Content) (passphrase : Option String) : Check SecretKey :=
  match content with
  | .identity stored => l.openSecret stored passphrase
  | .unreadable => .error "not an identity file"

def nodeId (key : SecretKey) : String := nodeIdFromPublicKey l.crypto (l.verifyingKey key.1)

/-- a key as it is written: sealed where there is a passphrase -/
def toStore (key : SecretKey) (passphrase : Option String) (draw : Draw) : Check StoredIdentity :=
  match passphrase with
  | some p => l.sealKey key p draw
  | none => .ok ⟨1, some (l.encode key.1), none⟩

end Linked

/-! ## The home -/

/-- the files of a home by name -/
abbrev Home : Type := String → Option Content

def identityFile : String := "identity.json"

def displacedPrefix : String := "identity.json.replaced-"

/-- `displaced_path`, at the second of the clock -/
def displacedFile (now : ℤ) : String := displacedPrefix ++ toString now

def Home.write (home : Home) (name : String) (content : Content) : Home := Function.update home name (some content)

@[simp] theorem Home.write_self (home : Home) (name : String) (content : Content) : home.write name content name = some content :=
  Function.update_self ..

/-- `fs::rename` of the identity: what was at the new name is gone -/
def Home.displace (home : Home) (now : ℤ) : Home :=
  Function.update (Function.update home (displacedFile now) (home identityFile)) identityFile none

/-- what an import does about the identity it finds -/
inductive Verdict where
  | keep
  | refuse (text : String)
  | displace
deriving DecidableEq

namespace Linked

variable (l : Linked)

def loadOrCreateSealed (home : Home) (passphrase : Option String) (draw : Draw) : Check SecretKey × Home :=
  match home identityFile with
  | some .unreadable => (.error "not an identity file", home)
  | some (.identity stored) =>
    match l.openSecret stored passphrase with
    | .error e => (.error e, home)
    | .ok key =>
      match stored.sealed_, passphrase with
      | none, some p =>
        match l.sealKey key p draw with
        | .error e => (.error e, home)
        | .ok resealed => (.ok key, home.write identityFile (.identity resealed))
      | _, _ => (.ok key, home)
  | none =>
    match l.toStore draw.key passphrase draw with
    | .error e => (.error e, home)
    | .ok stored => (.ok draw.key, home.write identityFile (.identity stored))

/-- the key of a backup, when it is the one the backup names -/
def backupKey (backup : IdentityBackup) (passphrase : String) : Check SecretKey := do
  let key ← l.unsealKey backup.sealed_ passphrase
  bailIf (l.nodeId key ≠ backup.nodeId ∨ l.encode (l.verifyingKey key.1) ≠ backup.publicKeyB64)
    "this backup names an account its key does not produce; refusing to import it"
  .ok key

def judge (backup : IdentityBackup) (localPassphrase : Option String) (force : Bool) (content : Content) : Verdict :=
  match l.openContent content localPassphrase with
  | .ok key =>
    if l.nodeId key = backup.nodeId then .keep
    else if force then .displace
    else .refuse (identityFile ++ " already holds account " ++ l.nodeId key ++ "; pass --force to replace it with " ++
      backup.nodeId)
  | .error _ =>
    if force then .displace
    else .refuse (identityFile ++ " holds an identity this command cannot open, so it cannot tell you what replacing it " ++
      "would cost; pass --force to replace it anyway")

def importBackup (home : Home) (backup : IdentityBackup) (backupPassphrase : String) (localPassphrase : Option String)
    (force : Bool) (now : ℤ) (draw : Draw) : Check SecretKey × Home :=
  match l.backupKey backup backupPassphrase with
  | .error e => (.error e, home)
  | .ok key =>
    let finish : Home → Check SecretKey × Home := fun home =>
      match l.toStore key localPassphrase draw with
      | .error e => (.error e, home)
      | .ok stored => (.ok key, home.write identityFile (.identity stored))
    match home identityFile with
    | none => finish home
    | some content =>
      match l.judge backup localPassphrase force content with
      | .keep => finish home
      | .refuse text => (.error text, home)
      | .displace => finish (home.displace now)

end Linked

/-- one call on a home, with what it reads of the clock and draws at random -/
inductive Call where
  | loadOrCreateSealed (passphrase : Option String) (draw : Draw)
  | importBackup (backup : IdentityBackup) (backupPassphrase : String) (localPassphrase : Option String) (force : Bool)
      (now : ℤ) (draw : Draw)

def Call.run (l : Linked) (home : Home) : Call → Check SecretKey × Home
  | .loadOrCreateSealed passphrase draw => l.loadOrCreateSealed home passphrase draw
  | .importBackup backup backupPassphrase localPassphrase force now draw =>
    l.importBackup home backup backupPassphrase localPassphrase force now draw

def step (l : Linked) (home : Home) (call : Call) : Home := (call.run l home).2

/-! ## Sealing -/

section

variable {l : Linked} {key : SecretKey} {draw : Draw} {stored : StoredIdentity}

@[simp] theorem keyFromBytes_val (key : SecretKey) : Linked.keyFromBytes key.1 = .ok key := by
  rw [Linked.keyFromBytes, dif_pos key.2]

theorem decodeB64_encode (hl : l.Lawful) (bytes : List UInt8) : l.decodeB64 (l.encode bytes) = .ok bytes := by
  rw [Linked.decodeB64, hl.decode_encode]
  rfl

/-- what is sealed opens under its passphrase -/
theorem openSecret_sealKey (hl : l.Lawful) {p : String} (h : l.sealKey key p draw = .ok stored) :
    l.openSecret stored (some p) = .ok key := by
  simp only [Linked.sealKey, bind_ok] at h
  obtain ⟨derived, hderived, cipher, hcipher, h⟩ := h
  obtain rfl := Except.ok.inj h
  have hcipher' := (orBail_ok _ _ _).1 hcipher
  simp only [Linked.openSecret, Linked.unsealKey, bind_ok, bailIf_ok, orBail_ok, not_not]
  exact ⟨(), trivial, p, rfl, (), trivial, draw.salt, decodeB64_encode hl _, draw.nonce, decodeB64_encode hl _, (), draw.nonce_length,
    derived, hderived, cipher, decodeB64_encode hl _, key.1, hl.decrypt_encrypt _ _ _ _ hcipher', keyFromBytes_val key⟩

/-- what is written opens to the key -/
theorem openSecret_toStore (hl : l.Lawful) {passphrase : Option String} (h : l.toStore key passphrase draw = .ok stored) :
    l.openSecret stored passphrase = .ok key := by
  cases passphrase with
  | some p => exact openSecret_sealKey hl h
  | none =>
    obtain rfl := Except.ok.inj h
    simp only [Linked.openSecret, bind_ok, bailIf_ok, orBail_ok, not_not]
    exact ⟨(), trivial, l.encode key.1, rfl, key.1, decodeB64_encode hl _, keyFromBytes_val key⟩

/-- a file that is not sealed opens alike under every passphrase -/
theorem openSecret_unsealed (hsealed : stored.sealed_ = none) (p q : Option String) :
    l.openSecret stored p = l.openSecret stored q := by
  rw [Linked.openSecret, Linked.openSecret, hsealed]

end

/-! ## Keys that are kept -/

section

variable (l : Linked)

/-- the file opens to the key under some passphrase -/
def Holds (content : Content) (key : SecretKey) : Prop := ∃ passphrase, l.openContent content passphrase = .ok key

/-- `identity.json` or a file it was displaced to holds the key -/
def Kept (home : Home) (key : SecretKey) : Prop :=
  ∃ name content, (name = identityFile ∨ ∃ second, name = displacedPrefix ++ second) ∧ home name = some content ∧
    Holds l content key

/-- When a call spares every key: an import that writes over the identity it finds finds no key there but the one it writes,
and an import that displaces it finds no file of the name it displaces it to, and gets its own key written. -/
def Spares (home : Home) : Call → Prop
  | .loadOrCreateSealed _ _ => True
  | .importBackup backup backupPassphrase localPassphrase force now draw =>
    ∀ key content, l.backupKey backup backupPassphrase = .ok key → home identityFile = some content →
      match l.judge backup localPassphrase force content with
      | .keep => ∀ other, Holds l content other → other = key
      | .refuse _ => True
      | .displace => home (displacedFile now) = none ∧ ∃ stored, l.toStore key localPassphrase draw = .ok stored

variable {l} {home : Home} {key : SecretKey}

theorem displacedPrefix_ne (second : String) : displacedPrefix ++ second ≠ identityFile := by
  intro heq
  have hlen := congrArg String.length heq
  rw [String.length_append] at hlen
  have hprefix : displacedPrefix.length = 23 := by decide
  have hfile : identityFile.length = 13 := by decide
  omega

/-- the other files are as they were -/
theorem Kept.write {content : Content} {k : SecretKey} (hk : Kept l home k)
    (hold : ∀ old, home identityFile = some old → Holds l old k → Holds l content k) :
    Kept l (home.write identityFile content) k := by
  obtain ⟨name, old, hname, hold', hkey⟩ := hk
  by_cases heq : name = identityFile
  · subst heq
    exact ⟨identityFile, content, Or.inl rfl, Home.write_self .., hold old hold' hkey⟩
  · exact ⟨name, old, hname, (Function.update_of_ne heq ..).trans hold', hkey⟩

/-- a displaced file keeps its keys, under a name that was free -/
theorem Kept.displace {now : ℤ} {k : SecretKey} (hk : Kept l home k) (hfree : home (displacedFile now) = none) :
    Kept l (home.displace now) k := by
  have hne : displacedFile now ≠ identityFile := displacedPrefix_ne _
  obtain ⟨name, content, hname, hold, hkey⟩ := hk
  by_cases heq : name = identityFile
  · refine ⟨displacedFile now, content, Or.inr ⟨_, rfl⟩, ?_, hkey⟩
    rw [Home.displace, Function.update_of_ne hne, Function.update_self, ← heq, hold]
  · have hother : name ≠ displacedFile now := fun h => by rw [h, hfree] at hold; cases hold
    refine ⟨name, content, hname, ?_, hkey⟩
    rw [Home.displace, Function.update_of_ne heq, Function.update_of_ne hother, hold]

theorem Kept.load (hl : l.Lawful) {k : SecretKey} (hk : Kept l home k) (passphrase : Option String) (draw : Draw) :
    Kept l (l.loadOrCreateSealed home passphrase draw).2 k := by
  unfold Linked.loadOrCreateSealed
  split
  · exact hk
  · next stored hfile =>
    split
    · exact hk
    · next key hopen =>
      split
      · next p hsealed =>
        split
        · exact hk
        · next resealed hseal =>
          refine hk.write fun old hold hkey => ?_
          obtain rfl := Option.some.inj (hfile.symm.trans hold)
          obtain ⟨q, hq⟩ := hkey
          -- the file was not sealed, so what it opens to now is what it opened to under `q`
          have heq : k = key := Except.ok.inj (hq.symm.trans ((openSecret_unsealed hsealed q _).trans hopen))
          exact ⟨some p, heq ▸ openSecret_sealKey hl hseal⟩
      · exact hk
  · next hfile =>
    split
    · exact hk
    · next stored hstored =>
      refine hk.write fun old hold _ => ?_
      rw [hfile] at hold
      cases hold

/-- what an import can do: fail and change nothing, write its key where there is none or one of its account, or displace the
identity it finds and then write its key or fail to -/
theorem importBackup_cases (home : Home) (backup : IdentityBackup) (bp : String) (lp : Option String) (force : Bool)
    (now : ℤ) (draw : Draw) :
    (∃ e, l.importBackup home backup bp lp force now draw = (.error e, home)) ∨
    (∃ key stored, l.backupKey backup bp = .ok key ∧ l.toStore key lp draw = .ok stored ∧
      (∀ content, home identityFile = some content → l.judge backup lp force content = .keep) ∧
      l.importBackup home backup bp lp force now draw = (.ok key, home.write identityFile (.identity stored))) ∨
    ∃ key content, l.backupKey backup bp = .ok key ∧ home identityFile = some content ∧
      l.judge backup lp force content = .displace ∧
      ((∃ stored, l.toStore key lp draw = .ok stored ∧ l.importBackup home backup bp lp force now draw =
          (.ok key, (home.displace now).write identityFile (.identity stored))) ∨
        ∃ e, l.toStore key lp draw = .error e ∧
          l.importBackup home backup bp lp force now draw = (.error e, home.displace now)) := by
  cases hkey : l.backupKey backup bp with
  | error e => exact Or.inl ⟨e, by rw [Linked.importBackup, hkey]⟩
  | ok key =>
    cases hfile : home identityFile with
    | none =>
      cases hstored : l.toStore key lp draw with
      | error e => exact Or.inl ⟨e, by simp only [Linked.importBackup, hkey, hfile, hstored]⟩
      | ok stored =>
        refine Or.inr (Or.inl ⟨key, stored, rfl, hstored, fun _ h => absurd h.symm (Option.some_ne_none _), ?_⟩)
        simp only [Linked.importBackup, hkey, hfile, hstored]
    | some content =>
      cases hjudge : l.judge backup lp force content with
      | refuse text => exact Or.inl ⟨text, by simp only [Linked.importBackup, hkey, hfile, hjudge]⟩
      | keep =>
        cases hstored : l.toStore key lp draw with
        | error e => exact Or.inl ⟨e, by simp only [Linked.importBackup, hkey, hfile, hjudge, hstored]⟩
        | ok stored =>
          refine Or.inr (Or.inl ⟨key, stored, rfl, hstored, fun c h => Option.some.inj h ▸ hjudge, ?_⟩)
          simp only [Linked.importBackup, hkey, hfile, hjudge, hstored]
      | displace =>
        refine Or.inr (Or.inr ⟨key, content, rfl, rfl, hjudge, ?_⟩)
        cases hstored : l.toStore key lp draw with
        | error e => exact Or.inr ⟨e, rfl, by simp only [Linked.importBackup, hkey, hfile, hjudge, hstored]⟩
        | ok stored => exact Or.inl ⟨stored, rfl, by simp only [Linked.importBackup, hkey, hfile, hjudge, hstored]⟩

theorem Kept.import (hl : l.Lawful) {k : SecretKey} (hk : Kept l home k) {backup : IdentityBackup} {bp : String}
    {lp : Option String} {force : Bool} {now : ℤ} {draw : Draw}
    (h : Spares l home (.importBackup backup bp lp force now draw)) :
    Kept l (l.importBackup home backup bp lp force now draw).2 k := by
  obtain ⟨e, hrun⟩ | ⟨key, stored, hkey, hstored, hkeep, hrun⟩ | ⟨key, content, hkey, hfile, hjudge, hcases⟩ :=
    importBackup_cases (l := l) home backup bp lp force now draw
  · rw [hrun]
    exact hk
  · rw [hrun]
    refine hk.write fun old hold hheld => ?_
    have hspares := h key old hkey hold
    rw [hkeep old hold] at hspares
    exact ⟨lp, hspares k hheld ▸ openSecret_toStore hl hstored⟩
  · have hspares := h key content hkey hfile
    rw [hjudge] at hspares
    have hmoved := hk.displace hspares.1
    obtain ⟨stored, -, hrun⟩ | ⟨e, -, hrun⟩ := hcases
    · rw [hrun]
      refine hmoved.write fun old hold _ => ?_
      rw [Home.displace, Function.update_self] at hold
      cases hold
    · rw [hrun]
      exact hmoved

/-- **One call.** -/
theorem Kept.step (hl : l.Lawful) {k : SecretKey} (hk : Kept l home k) {call : Call} (h : Spares l home call) :
    Kept l (step l home call) k := by
  cases call with
  | loadOrCreateSealed passphrase draw => exact hk.load hl passphrase draw
  | importBackup backup bp lp force now draw => exact hk.import hl h

theorem Kept.run (hl : l.Lawful) {k : SecretKey} {calls : List Call} (hk : Kept l home k)
    (h : Along (Identity.step l) (Spares l) home calls) : Kept l (calls.foldl (Identity.step l) home) k := by
  induction calls generalizing home with
  | nil => exact hk
  | cons call calls ih => exact ih (hk.step hl h.1) h.2

/-- an import that fails has changed nothing -/
theorem import_error {backup : IdentityBackup} {bp : String} {lp : Option String} {force : Bool} {now : ℤ} {draw : Draw}
    (h : Spares l home (.importBackup backup bp lp force now draw)) {e : String}
    (herr : (l.importBackup home backup bp lp force now draw).1 = .error e) :
    (l.importBackup home backup bp lp force now draw).2 = home := by
  obtain ⟨e', hrun⟩ | ⟨key, stored, -, -, -, hrun⟩ | ⟨key, content, hkey, hfile, hjudge, hcases⟩ :=
    importBackup_cases (l := l) home backup bp lp force now draw
  · rw [hrun]
  · rw [hrun] at herr
    cases herr
  · have hspares := h key content hkey hfile
    rw [hjudge] at hspares
    obtain ⟨-, stored', hstored'⟩ := hspares
    obtain ⟨stored, -, hrun⟩ | ⟨e', hstored, -⟩ := hcases
    · rw [hrun] at herr
      cases herr
    · rw [hstored] at hstored'
      cases hstored'

/-- every key that `identity.json` held at some point of the run is kept at the end, and no import that failed on the way has
changed a file -/
def NoneDestroyed (l : Linked) (home : Home) (calls : List Call) : Prop :=
  (∀ earlier later, calls = earlier ++ later → ∀ content key,
    (earlier.foldl (Identity.step l) home) identityFile = some content → Holds l content key →
      Kept l (calls.foldl (Identity.step l) home) key) ∧
  Along (Identity.step l) (fun home call => match call with
    | .loadOrCreateSealed _ _ => True
    | .importBackup .. => ∀ e, (call.run l home).1 = .error e → Identity.step l home call = home) home calls

theorem along_error {calls : List Call} (h : Along (Identity.step l) (Spares l) home calls) :
    Along (Identity.step l) (fun home call => match call with
      | .loadOrCreateSealed _ _ => True
      | .importBackup .. => ∀ e, (call.run l home).1 = .error e → Identity.step l home call = home) home calls := by
  induction calls generalizing home with
  | nil => trivial
  | cons call calls ih =>
    refine ⟨?_, ih h.2⟩
    cases call with
    | loadOrCreateSealed passphrase draw => trivial
    | importBackup backup bp lp force now draw => exact fun e herr => import_error h.1 herr

end

/-- **No key is destroyed.** As long as no forced import displaces an identity to a name that is taken, no key fails to be
written after that, and what an import of the account already here writes over holds that key only. -/
theorem no_key_destroyed (l : Linked) (hl : l.Lawful) (home : Home) (calls : List Call)
    (h : Along (step l) (Spares l) home calls) : NoneDestroyed l home calls := by
  refine ⟨?_, along_error h⟩
  rintro earlier later rfl content key hfile hkey
  have hkept : Kept l (earlier.foldl (step l) home) key := ⟨identityFile, content, Or.inl rfl, hfile, hkey⟩
  rw [List.foldl_append]
  exact hkept.run hl ((Along.append_iff home earlier later).1 h).2

/-! ## Two imports in one second -/

/-- bytes as characters, and a cipher that hides nothing -/
def plainLinked : Linked where
  crypto :=
    { sha256 := id, json := fun _ => [], decode := fun s => some (s.toList.map fun c => UInt8.ofNat c.toNat)
      validKey := fun _ => true, verify := fun _ _ _ => true }
  argon2 := fun _ _ => some []
  encrypt := fun _ _ plain => some plain
  decrypt := fun _ _ cipher => some cipher
  encode := fun bytes => String.ofList (bytes.map fun b => Char.ofNat b.toNat)
  verifyingKey := id

theorem plainLinked_lawful : plainLinked.Lawful where
  decode_encode bytes := by
    have hchar : ∀ b : UInt8, UInt8.ofNat (Char.ofNat b.toNat).toNat = b := by
      intro b
      have hvalid : b.toNat.isValidChar := Or.inl (by have := b.toNat_lt; omega)
      rw [Char.ofNat, dif_pos hvalid]
      exact UInt8.ofNat_toNat
    have hmap : ((String.ofList (bytes.map fun b => Char.ofNat b.toNat)).toList.map fun c => UInt8.ofNat c.toNat) = bytes := by
      rw [String.toList_ofList, List.map_map]
      exact (List.map_congr_left fun b _ => hchar b).trans (List.map_id bytes)
    exact congrArg some hmap
  decrypt_encrypt _ _ _ _ h := h.symm

def keyOf (n : ℕ) : SecretKey := ⟨List.replicate 32 (UInt8.ofNat n), List.length_replicate⟩

def drawOf (n : ℕ) : Draw := ⟨keyOf n, List.replicate 16 0, List.replicate 24 0, List.length_replicate⟩

def backupOf (n : ℕ) : IdentityBackup where
  nodeId := plainLinked.nodeId (keyOf n)
  publicKeyB64 := plainLinked.encode (keyOf n).1
  sealed_ := ⟨"argon2id", "", plainLinked.encode (List.replicate 24 0), plainLinked.encode (keyOf n).1⟩

/-- the account of a new home is replaced, and the one it is replaced with a second later -/
theorem replaced_twice_kept : NoneDestroyed plainLinked (fun _ => none)
    [.loadOrCreateSealed none (drawOf 1), .importBackup (backupOf 2) "pw" none true 10 (drawOf 4),
      .importBackup (backupOf 3) "pw" none true 11 (drawOf 5)] := by
  refine no_key_destroyed plainLinked plainLinked_lawful _ _ ⟨trivial, ?_, ?_, trivial⟩
  · intro key content _ hfile
    obtain rfl : .identity ⟨1, some (plainLinked.encode (keyOf 1).1), none⟩ = content := Option.some.inj hfile
    have hjudge : plainLinked.judge (backupOf 2) none true
        (.identity ⟨1, some (plainLinked.encode (keyOf 1).1), none⟩) = .displace := by decide +kernel
    rw [hjudge]
    exact ⟨by decide +kernel, _, rfl⟩
  · intro key content _ hfile
    obtain rfl : .identity ⟨1, some (plainLinked.encode (keyOf 2).1), none⟩ = content := Option.some.inj hfile
    have hjudge : plainLinked.judge (backupOf 3) none true
        (.identity ⟨1, some (plainLinked.encode (keyOf 2).1), none⟩) = .displace := by decide +kernel
    rw [hjudge]
    exact ⟨by decide +kernel, _, rfl⟩

/-- what a forced import leaves of a home that another account holds -/
theorem forced_import {l : Linked} {home : Home} {backup : IdentityBackup} {bp : String} {now : ℤ} {draw : Draw}
    {key : SecretKey} {content : Content} (hkey : l.backupKey backup bp = .ok key)
    (hfile : home identityFile = some content) (hjudge : l.judge backup none true content = .displace) :
    step l home (.importBackup backup bp none true now draw) =
      (home.displace now).write identityFile (.identity ⟨1, some (l.encode key.1), none⟩) := by
  simp only [step, Call.run, Linked.importBackup, hkey, hfile, hjudge, Linked.toStore]

/-- what is displaced twice in one second is only there once -/
theorem displaced_twice (home : Home) (now : ℤ) (first second : Content) {name : String} {content : Content}
    (h : (((home.displace now).write identityFile first).displace now).write identityFile second name = some content) :
    content = second ∨ content = first ∨ name ≠ identityFile ∧ home name = some content := by
  by_cases hid : name = identityFile
  · rw [hid, Home.write, Function.update_self] at h
    exact Or.inl (Option.some.inj h).symm
  · rw [Home.write, Function.update_of_ne hid, Home.displace, Function.update_of_ne hid] at h
    by_cases hdis : name = displacedFile now
    · rw [hdis, Function.update_self, Home.write, Function.update_self] at h
      exact Or.inr (Or.inl (Option.some.inj h).symm)
    · rw [Function.update_of_ne hdis, Home.write, Function.update_of_ne hid, Home.displace, Function.update_of_ne hid,
        Function.update_of_ne hdis] at h
      exact Or.inr (Or.inr ⟨hid, h⟩)

theorem openContent_unsealed {l : Linked} (hl : l.Lawful) (key : SecretKey) (p : Option String) :
    l.openContent (.identity ⟨1, some (l.encode key.1), none⟩) p = .ok key := by
  simp only [Linked.openContent, Linked.openSecret, bind_ok, bailIf_ok, orBail_ok, not_not]
  exact ⟨(), trivial, l.encode key.1, rfl, key.1, decodeB64_encode hl _, keyFromBytes_val key⟩

/-- an unsealed file holds the key it was written with, and no other -/
theorem holds_unsealed_iff {l : Linked} (hl : l.Lawful) (key other : SecretKey) :
    Holds l (.identity ⟨1, some (l.encode key.1), none⟩) other ↔ other = key := by
  constructor
  · rintro ⟨p, hp⟩
    exact Except.ok.inj (hp.symm.trans (openContent_unsealed hl key p))
  · rintro rfl
    exact ⟨none, openContent_unsealed hl other none⟩

/-- two forced imports in one second leave the two keys they brought, and what the other files held -/
theorem forced_twice {l : Linked} (hl : l.Lawful) {home : Home} {first second : IdentityBackup} {bp bp' : String} {now : ℤ}
    {draw draw' : Draw} {k k' : SecretKey} {content : Content} (hfile : home identityFile = some content)
    (hkey : l.backupKey first bp = .ok k) (hkey' : l.backupKey second bp' = .ok k')
    (hjudge : l.judge first none true content = .displace) (hother : l.nodeId k ≠ second.nodeId) {key : SecretKey}
    (h : Kept l ([Call.importBackup first bp none true now draw, .importBackup second bp' none true now draw'].foldl (step l)
      home) key) :
    key = k' ∨ key = k ∨ ∃ name content', name ≠ identityFile ∧ home name = some content' ∧ Holds l content' key := by
  have hjudge' : l.judge second none true (.identity ⟨1, some (l.encode k.1), none⟩) = .displace := by
    rw [Linked.judge, openContent_unsealed hl k none]
    exact if_neg hother
  have hrun : [Call.importBackup first bp none true now draw, .importBackup second bp' none true now draw'].foldl (step l) home =
      (((home.displace now).write identityFile (.identity ⟨1, some (l.encode k.1), none⟩)).displace now).write identityFile
        (.identity ⟨1, some (l.encode k'.1), none⟩) := by
    rw [List.foldl_cons, List.foldl_cons, List.foldl_nil, forced_import hkey hfile hjudge,
      forced_import hkey' (Home.write_self ..) hjudge']
  rw [hrun] at h
  obtain ⟨name, found, -, hfound, hholds⟩ := h
  obtain rfl | rfl | ⟨hne, hold⟩ := displaced_twice home now _ _ hfound
  · exact Or.inl ((holds_unsealed_iff hl k' key).1 hholds)
  · exact Or.inr (Or.inl ((holds_unsealed_iff hl k key).1 hholds))
  · exact Or.inr (Or.inr ⟨name, found, hne, hold, hholds⟩)

/-- in one second the first account is displaced to the name that the second one is then displaced to -/
theorem displaced_key_lost : ¬ ∀ (l : Linked) (_ : l.Lawful) (home : Home) (calls : List Call), NoneDestroyed l home calls := by
  intro h
  let home : Home := Home.write (fun _ => none) identityFile (.identity ⟨1, some (plainLinked.encode (keyOf 1).1), none⟩)
  have hfile : home identityFile = some (.identity ⟨1, some (plainLinked.encode (keyOf 1).1), none⟩) := Home.write_self ..
  have hkept := (h plainLinked plainLinked_lawful home [.importBackup (backupOf 2) "pw" none true 10 (drawOf 4),
    .importBackup (backupOf 3) "pw" none true 10 (drawOf 5)]).1 [] _ rfl _ (keyOf 1) hfile
      ((holds_unsealed_iff plainLinked_lawful _ _).2 rfl)
  have hfirst : plainLinked.backupKey (backupOf 2) "pw" = .ok (keyOf 2) := by decide +kernel
  have hsecond : plainLinked.backupKey (backupOf 3) "pw" = .ok (keyOf 3) := by decide +kernel
  obtain heq | heq | ⟨name, content, hne, hother, -⟩ :=
    forced_twice plainLinked_lawful hfile hfirst hsecond (by decide +kernel) (by decide +kernel) hkept
  · exact absurd heq (by decide)
  · exact absurd heq (by decide)
  · have hgone : home name = none := Function.update_of_ne hne ..
    rw [hgone] at hother
    cases hother

end Hocmesh.Core.Identity
