import SecureABE.Audit.Log
import SecureABE.Authorities.Registry
import SecureABE.Core.Codec
import SecureABE.Revocation.List
import SecureABE.Storage.Store

/-!
# The files of a deployment

The paths under the data directory and the functions of `cli/src/main.rs` that load and save what is
stored there. An error is its text, as `anyhow` displays it. Each `..On` function is what a disk holds
in one of the files; loading returns it and leaves the disk alone (`reads_loadSetup` and so on).
-/

namespace SecureABE.Cli

open Rust SecureABE.Core SecureABE.Revocation SecureABE.Authorities SecureABE.Audit SecureABE.Storage

variable {F G₁ G₂ Gₜ : Type} [Field F] [AddCommGroup G₁] [Module F G₁] [AddCommGroup G₂] [Module F G₂]
  [AddCommGroup Gₜ] [Module F Gₜ]
variable (C : Curve F G₁ G₂ Gₜ) (D : Codec) (data : Path)

/-! ## Paths -/

def setupPath : Path := data.join "setup.json"

def authoritiesPath : Path := data.join "authorities.json"

def revocationPath : Path := data.join "revocation.json"

def auditPath : Path := data.join "audit.log"

def keysDir : Path := data.join "keys"

def packagesDir : Path := data.join "packages"

/-- The key file of a user. -/
def keyFile (user : String) : Path := (keysDir data).join (user ++ ".json")

/-! ## Contents -/

def setupBytes (pp : PublicParams G₁ G₂ Gₜ) (msk : MasterSecret F) : Bytes :=
  utf8 (setupBundleToJson C D pp msk)

def registryBytes (reg : AuthorityRegistry) : Bytes := utf8 (D.toStringPretty reg.toJson)

def userKeyBytes (usk : UserSecretKey G₂) : Bytes := utf8 (userKeyToJson C D usk)

/-! ## Loading and saving -/

def loadSetup : FileCmd String (PublicParams G₁ G₂ Gₜ × MasterSecret F) := do
  let s ← Cmd.mapErr (fun _ => "no setup found; run `secure-abe setup` first")
    (Fs.readToString (setupPath data))
  Cmd.ofOutcome (Outcome.mapErr AbeError.toText (setupBundleFromJson C D s))

def saveSetup (pp : PublicParams G₁ G₂ Gₜ) (msk : MasterSecret F) : FileCmd String Unit :=
  Cmd.mapErr IoError.toText (Fs.write (setupPath data) (setupBytes C D pp msk))

def loadRegistry : FileCmd String AuthorityRegistry := do
  let there ← Fs.exist (authoritiesPath data)
  if there = false then pure AuthorityRegistry.new
  else do
    let s ← Cmd.mapErr IoError.toText (Fs.readToString (authoritiesPath data))
    Cmd.ofOutcome (Outcome.ofExcept id (D.fromStr s >>= AuthorityRegistry.fromJson))

def saveRegistry (reg : AuthorityRegistry) : FileCmd String Unit :=
  Cmd.mapErr IoError.toText (Fs.write (authoritiesPath data) (registryBytes D reg))

def loadRevocation : FileCmd String RevocationList :=
  Cmd.mapErr RevocationError.toText (RevocationList.open D (revocationPath data))

def loadUserKey (user : String) : FileCmd String (UserSecretKey G₂) := do
  let s ← Cmd.mapErr (fun _ => "no key on file for user '" ++ user ++ "'; run `issue` first")
    (Fs.readToString (keyFile data user))
  Cmd.ofOutcome (Outcome.mapErr AbeError.toText (userKeyFromJson C D s))

def saveUserKey (user : String) (usk : UserSecretKey G₂) : FileCmd String Unit := do
  Cmd.mapErr IoError.toText (Fs.createDirAll (keysDir data))
  Cmd.mapErr IoError.toText (Fs.write (keyFile data user) (userKeyBytes C D usk))

def recordEvent (event : AuditEvent) : FileCmd String Unit :=
  Cmd.mapErr AuditError.toText ((AuditLog.open (auditPath data)).record D event)

/-! ## What a disk holds -/

def setupOn (d : Disk) : Outcome String (PublicParams G₁ G₂ Gₜ × MasterSecret F) := do
  let s ← Outcome.mapErr (fun _ => "no setup found; run `secure-abe setup` first")
    (Fs.textOf (d.read (setupPath data)))
  Outcome.mapErr AbeError.toText (setupBundleFromJson C D s)

def registryOn (d : Disk) : Outcome String AuthorityRegistry :=
  if d.has (authoritiesPath data) = false then .ok AuthorityRegistry.new
  else do
    let s ← Outcome.mapErr IoError.toText (Fs.textOf (d.read (authoritiesPath data)))
    Outcome.ofExcept id (D.fromStr s >>= AuthorityRegistry.fromJson)

def revocationStateOn (d : Disk) : Outcome RevocationError RevocationState :=
  if d.has (revocationPath data) = true then do
    let s ← Outcome.mapErr .io (Fs.textOf (d.read (revocationPath data)))
    RevocationState.decode D s
  else .ok default

def revocationOn (d : Disk) : Outcome String RevocationList :=
  Outcome.mapErr RevocationError.toText (do
    let state ← revocationStateOn D data d
    .ok { path := revocationPath data, state })

def userKeyOn (user : String) (d : Disk) : Outcome String (UserSecretKey G₂) := do
  let s ← Outcome.mapErr (fun _ => "no key on file for user '" ++ user ++ "'; run `issue` first")
    (Fs.textOf (d.read (keyFile data user)))
  Outcome.mapErr AbeError.toText (userKeyFromJson C D s)

theorem reads_loadSetup (d : Disk) : Fs.Reads (loadSetup C D data) d (setupOn C D data d) :=
  (Fs.reads_readToString _ d).mapErr.bind fun _ => Fs.reads_ofOutcome _ d

theorem reads_loadRegistry (d : Disk) : Fs.Reads (loadRegistry D data) d (registryOn D data d) :=
  (Fs.reads_exist _ d).bind_ok (Fs.Reads.ite (Fs.reads_pure _ d)
    ((Fs.reads_readToString _ d).mapErr.bind fun _ => Fs.reads_ofOutcome _ d))

theorem reads_loadRevocation (d : Disk) :
    Fs.Reads (loadRevocation D data) d (revocationOn D data d) := by
  have hload : Fs.Reads (RevocationState.load D (revocationPath data)) d
      (revocationStateOn D data d) :=
    (Fs.reads_exist _ d).bind_ok (Fs.Reads.ite
      ((Fs.reads_readToString _ d).mapErr.bind fun _ => Fs.reads_ofOutcome _ d) (Fs.reads_pure _ d))
  exact (hload.bind fun _ => Fs.reads_pure _ d).mapErr

theorem reads_loadUserKey (user : String) (d : Disk) :
    Fs.Reads (loadUserKey C D data user) d (userKeyOn C D data user d) :=
  (Fs.reads_readToString _ d).mapErr.bind fun _ => Fs.reads_ofOutcome _ d

variable {D data} in
theorem path_of_revocationOn {d : Disk} {rl : RevocationList} (h : revocationOn D data d = .ok rl) :
    rl.path = revocationPath data := by
  obtain ⟨state, -, hret⟩ := bind_eq_ok.1 (Outcome.mapErr_eq_ok.1 h)
  rw [← Except.ok.inj hret]

theorem exec_saveSetup (pp : PublicParams G₁ G₂ Gₜ) (msk : MasterSecret F) (d : Disk) :
    Fs.exec (saveSetup C D data pp msk) d =
      (.ok (), d.write (setupPath data) (setupBytes C D pp msk)) := rfl

theorem exec_saveRegistry (reg : AuthorityRegistry) (d : Disk) :
    Fs.exec (saveRegistry D data reg) d =
      (.ok (), d.write (authoritiesPath data) (registryBytes D reg)) := rfl

theorem exec_saveUserKey (user : String) (usk : UserSecretKey G₂) (d : Disk) :
    Fs.exec (saveUserKey C D data user usk) d =
      (.ok (), (d.createDirAll (keysDir data)).write (keyFile data user) (userKeyBytes C D usk)) := rfl

theorem exec_recordEvent (event : AuditEvent) (d : Disk) :
    Fs.exec (recordEvent D data event) d =
      (.ok (), d.append (auditPath data) (AuditLog.line D event)) := by
  rw [recordEvent, Fs.exec_mapErr, AuditLog.exec_record]
  rfl

end SecureABE.Cli
