import SecureABE.Core.Codec
import SecureABE.Envelope.Sealing
import SecureABE.Foundations.FileSystem

/-!
# The package store

`storage/src/lib.rs`: each package is a directory under the root of the store, with the sealed
document, the wrapped key and a manifest. `exec_put` and `reads_get` say what the two operations do
to a disk; `packageOn` is the package that a disk holds under an id.
-/

namespace SecureABE.Storage

open Rust SecureABE.Core SecureABE.Envelope

inductive StorageError
  | io (e : IoError)
  | serde (msg : String)
  | encoding (e : AbeError)
  | notFound (id : String)
  deriving DecidableEq, Repr

/-- The derived `Display`. -/
def StorageError.toText : StorageError → String
  | .io e => "io error: " ++ e.toText
  | .serde msg => "serialization error: " ++ msg
  | .encoding e => "encoding error: " ++ e.toText
  | .notFound id => "package '" ++ id ++ "' was not found"

structure PackageManifest where
  id : String
  originalFilename : String
  policySummary : String
  createdUnix : UInt64
  deriving DecidableEq, Repr

/-- The derived `Serialize`. -/
def PackageManifest.toJson (m : PackageManifest) : Json :=
  .obj [("id", .str m.id), ("original_filename", .str m.originalFilename),
    ("policy_summary", .str m.policySummary), ("created_unix", .num m.createdUnix.toNat)]

structure PackageStore where
  root : Path

def PackageStore.open (root : Path) : FileCmd StorageError PackageStore := do
  Cmd.mapErr .io (Fs.createDirAll root)
  pure { root }

/-- What `put` reads off the clock and draws for the id. -/
structure Stamp where
  nanos : ℕ
  idBytes : ByteArr 4
  createdUnix : UInt64

variable {F G₁ G₂ Gₜ : Type} [Field F] [AddCommGroup G₁] [Module F G₁] [AddCommGroup G₂] [Module F G₂]
  [AddCommGroup Gₜ] [Module F Gₜ]
variable (C : Curve F G₁ G₂ Gₜ) (D : Codec)

/-- The time in hexadecimal, and random bytes. -/
def newId (stamp : Stamp) : String :=
  String.ofList (Nat.toDigits 16 stamp.nanos) ++ "-" ++ D.hexEncode stamp.idBytes.1

namespace PackageStore

def packageDir (store : PackageStore) (id : String) : Path := store.root.join id

def sealedPath (store : PackageStore) (id : String) : Path :=
  (store.packageDir id).join "sealed.json"

def keyPath (store : PackageStore) (id : String) : Path :=
  (store.packageDir id).join "key_ciphertext.json"

def manifestPath (store : PackageStore) (id : String) : Path :=
  (store.packageDir id).join "manifest.json"

/-! ## Writing -/

def sealedBytes (package : EncryptedPackage G₁) : Bytes :=
  utf8 (D.toStringPretty package.sealedDoc.toJson)

def keyBytes (package : EncryptedPackage G₁) : Bytes :=
  utf8 (ciphertextToJson C D package.keyCiphertext)

def manifestBytes (originalFilename : String) (package : EncryptedPackage G₁) (stamp : Stamp) :
    Bytes :=
  utf8 (D.toStringPretty (PackageManifest.toJson
    { id := newId D stamp, originalFilename, policySummary := package.sealedDoc.policySummary,
      createdUnix := stamp.createdUnix }))

/-- Persists a package under a fresh random id, returning that id. -/
def put (store : PackageStore) (originalFilename : String) (package : EncryptedPackage G₁)
    (stamp : Stamp) : FileCmd StorageError String := do
  let id := newId D stamp
  Cmd.mapErr .io (Fs.createDirAll (store.packageDir id))
  Cmd.mapErr .io (Fs.write (store.sealedPath id) (sealedBytes D package))
  Cmd.mapErr .io (Fs.write (store.keyPath id) (keyBytes C D package))
  Cmd.mapErr .io (Fs.write (store.manifestPath id) (manifestBytes D originalFilename package stamp))
  pure id

/-- The disk after `put`. -/
def afterPut (store : PackageStore) (originalFilename : String) (package : EncryptedPackage G₁)
    (stamp : Stamp) (d : Disk) : Disk :=
  let id := newId D stamp
  (((d.createDirAll (store.packageDir id)).write (store.sealedPath id) (sealedBytes D package)).write
    (store.keyPath id) (keyBytes C D package)).write
    (store.manifestPath id) (manifestBytes D originalFilename package stamp)

theorem exec_put (store : PackageStore) (originalFilename : String) (package : EncryptedPackage G₁)
    (stamp : Stamp) (d : Disk) :
    Fs.exec (store.put C D originalFilename package stamp) d =
      (.ok (newId D stamp), store.afterPut C D originalFilename package stamp d) := rfl

theorem exec_open (root : Path) (d : Disk) :
    Fs.exec (PackageStore.open root) d = (.ok { root }, d.createDirAll root) := rfl

/-! ## Reading -/

/-- The sealed document of a text. -/
def decodeSealed (s : String) : Outcome StorageError SealedDocument :=
  Outcome.ofExcept .serde (D.fromStr s >>= SealedDocument.fromJson)

/-- The wrapped key of a text. -/
def decodeKey (s : String) : Outcome StorageError (AbeCiphertext G₁) :=
  Outcome.mapErr .encoding (ciphertextFromJson C D s)

def get (store : PackageStore) (id : String) : FileCmd StorageError (EncryptedPackage G₁) := do
  let there ← Fs.exist (store.packageDir id)
  if there = false then Cmd.ofOutcome (Outcome.err (.notFound id))
  else do
    let text ← Cmd.mapErr .io (Fs.readToString (store.sealedPath id))
    let sealedDoc ← Cmd.ofOutcome (decodeSealed D text)
    let text ← Cmd.mapErr .io (Fs.readToString (store.keyPath id))
    let keyCiphertext ← Cmd.ofOutcome (decodeKey C D text)
    pure { sealedDoc, keyCiphertext }

/-- The package that a disk holds under an id. -/
def packageOn (store : PackageStore) (id : String) (d : Disk) :
    Outcome StorageError (EncryptedPackage G₁) :=
  if d.has (store.packageDir id) = false then Outcome.err (.notFound id)
  else do
    let text ← Outcome.mapErr .io (Fs.textOf (d.read (store.sealedPath id)))
    let sealedDoc ← decodeSealed D text
    let text ← Outcome.mapErr .io (Fs.textOf (d.read (store.keyPath id)))
    let keyCiphertext ← decodeKey C D text
    .ok { sealedDoc, keyCiphertext }

/-- What is loaded is there. -/
theorem of_packageOn_eq_ok {store : PackageStore} {id : String} {d : Disk}
    {package : EncryptedPackage G₁} (h : store.packageOn C D id d = .ok package) :
    d.has (store.packageDir id) = true ∧ ∃ b, d.files.lookup (store.keyPath id) = some b := by
  unfold packageOn at h
  split_ifs at h with hdir
  · cases h
  · obtain ⟨sealedText, -, h⟩ := bind_eq_ok.1 h
    obtain ⟨sealedDoc, -, h⟩ := bind_eq_ok.1 h
    obtain ⟨keyText, hkey, -⟩ := bind_eq_ok.1 h
    refine ⟨by simpa using hdir, ?_⟩
    cases hfile : d.files.lookup (store.keyPath id) with
    | none =>
      rw [Disk.read, hfile] at hkey
      cases hkey
    | some b => exact ⟨b, rfl⟩

theorem reads_get (store : PackageStore) (id : String) (d : Disk) :
    Fs.Reads (store.get C D id) d (store.packageOn C D id d) := by
  refine (Fs.reads_exist _ d).bind_ok (Fs.Reads.ite (Fs.reads_ofOutcome _ d) ?_)
  apply (Fs.reads_readToString _ d).mapErr.bind
  intro text
  apply (Fs.reads_ofOutcome _ d).bind
  intro sealedDoc
  apply (Fs.reads_readToString _ d).mapErr.bind
  intro text
  exact (Fs.reads_ofOutcome _ d).bind fun keyCiphertext => Fs.reads_pure _ d

end PackageStore

end SecureABE.Storage
