import SecureABE.Cli.Commands

/-!
# What the commands do to a disk

One equation for each command: the outcome as a function of what the disk holds, and the disk after
it. The results on the commands use these only. A command that fails before its first write leaves
the disk as it was.
-/

namespace SecureABE.Cli

open Rust SecureABE.Core SecureABE.Policy SecureABE.Revocation SecureABE.Authorities SecureABE.Audit
  SecureABE.Envelope SecureABE.Storage

variable {F G₁ G₂ Gₜ : Type} [Field F] [DecidableEq F] [AddCommGroup G₁] [Module F G₁]
  [AddCommGroup G₂] [Module F G₂] [AddCommGroup Gₜ] [Module F Gₜ]
variable (C : Curve F G₁ G₂ Gₜ) (A : Cipher) (D : Codec) (cwd data : Path)

/-- A part of a command with its errors as text. -/
theorem exec_mapErr_bind {ε α β : Type} {f : ε → String} {x : FileCmd ε α} {g : α → FileCmd String β}
    {d d' : Disk} {a : α} (h : Fs.exec x d = (.ok a, d')) :
    Fs.exec (Cmd.mapErr f x >>= g) d = Fs.exec (g a) d' := by
  rw [Fs.exec_bind, Fs.exec_mapErr, h, Outcome.mapErr_ok, Cmd.andThen_ok]

/-! ## Setup and authorities -/

/-- The event that ends `cmd_setup`. -/
def setupEvent (fresh : Fresh F) : AuditEvent :=
  fresh.event "system" "SETUP" "-" "generated master secret and public parameters"

omit [DecidableEq F] in
theorem exec_cmdSetup (fresh : Fresh F) (d : Disk) :
    Fs.exec (cmdSetup C D data fresh) d = (.ok (),
      (((((d.createDirAll data).write (setupPath data)
        (setupBytes C D (setup C fresh.scalars).1.1 (setup C fresh.scalars).1.2)).write
        (authoritiesPath data) (registryBytes D AuthorityRegistry.new)).createDirAll
        (packagesDir data)).append (auditPath data) (AuditLog.line D (setupEvent fresh)))) := by
  rw [cmdSetup, exec_mapErr_bind (Fs.exec_createDirAll _ _)]
  simp only [Fs.exec_bind, exec_saveSetup, exec_saveRegistry, Fs.exec_mapErr, PackageStore.exec_open,
    Outcome.mapErr_ok, Cmd.andThen_ok, exec_recordEvent]
  rfl

theorem exec_cmdRegisterAuthority (name controls : String) (d : Disk) :
    Fs.exec (cmdRegisterAuthority D data name controls) d =
      Cmd.andThen (registryOn D data d, d) fun reg d =>
        (.ok (), d.write (authoritiesPath data)
          (registryBytes D (reg.register name (splitControls controls)))) := by
  rw [cmdRegisterAuthority, Fs.exec_bind, reads_loadRegistry]
  rfl

/-! ## Issuing -/

/-- The outcome of `cmd_issue` up to its first write. -/
def issueOutcome (args : IssueArgs) (fresh : Fresh F) (d : Disk) :
    Outcome String (Issued F G₁ G₂ Gₜ) := do
  let (pp, msk) ← setupOn C D data d
  let registry ← registryOn D data d
  let revocation ← revocationOn D data d
  if revocation.isUserRevoked args.user = true then Outcome.err (revokedMessage args.user)
  else do
    let claims ← parseClaims args.flags args.texts args.numerics
    let st ← grantClaims registry revocation args.authority claims
      { pp, flatAttrs := [], rng := fresh.scalars }
    let existing ← Cmd.caught (userKeyOn C D data args.user d)
    mintKey msk args.user st existing

theorem reads_prepareIssue (args : IssueArgs) (fresh : Fresh F) (d : Disk) :
    Fs.Reads (prepareIssue C D data args fresh) d (issueOutcome C D data args fresh d) := by
  apply (reads_loadSetup C D data d).bind
  rintro ⟨pp, msk⟩
  apply (reads_loadRegistry D data d).bind
  intro registry
  have hrev := reads_loadRevocation D data d
  cases h : revocationOn D data d with
  | error e =>
    rw [h] at hrev
    exact hrev.bind_error
  | ok revocation =>
    rw [h] at hrev
    obtain ⟨hint, hhint⟩ := Fs.exists_caught_textOf (ε := String) (d.read (revocationPath data))
    have hread : Fs.Reads (Cmd.attempt (Fs.readToString (revocationPath data)) : FileCmd String _) d
        (.ok hint) := hhint ▸ (Fs.reads_readToString _ d).attempt
    refine hrev.bind_ok (hread.bind_ok (hrev.bind_ok (Fs.Reads.ite (Fs.reads_ofOutcome _ d) ?_)))
    apply (Fs.reads_ofOutcome _ d).bind
    intro claims
    apply (Fs.reads_ofOutcome _ d).bind
    intro st
    exact (reads_loadUserKey C D data args.user d).attempt.bind fun existing =>
      Fs.reads_ofOutcome _ d

/-- The event that ends `cmd_issue`. -/
def issueEvent (args : IssueArgs) (fresh : Fresh F) (flatAttrs : List String) : AuditEvent :=
  fresh.event args.authority "ISSUE_KEY" args.user ("attributes=" ++ ",".intercalate flatAttrs)

/-- The disk after a key is issued. -/
def afterIssue (args : IssueArgs) (fresh : Fresh F) (key : Issued F G₁ G₂ Gₜ) (d : Disk) : Disk :=
  (((d.write (setupPath data) (setupBytes C D key.pp key.msk)).createDirAll (keysDir data)).write
    (keyFile data args.user) (userKeyBytes C D key.usk)).append (auditPath data)
      (AuditLog.line D (issueEvent args fresh key.flatAttrs))

/-- **`cmd_issue`** fails without a trace, or writes the parameters, the key and the event. -/
theorem exec_cmdIssue (args : IssueArgs) (fresh : Fresh F) (d : Disk) :
    Fs.exec (cmdIssue C D data args fresh) d =
      Cmd.andThen (issueOutcome C D data args fresh d, d) fun key d =>
        (.ok (), afterIssue C D data args fresh key d) := by
  rw [cmdIssue, Fs.exec_bind, reads_prepareIssue]
  congr 1
  funext key d
  simp only [Fs.exec_bind, exec_saveSetup, exec_saveUserKey, Cmd.andThen_ok, exec_recordEvent]
  rfl

/-! ## Encryption -/

/-- The outcome of `cmd_encrypt` up to its first write. -/
def encryptOutcome (policy : String) (fresh : Fresh F) (d : Disk) :
    Outcome String (Prepared F G₁ G₂ Gₜ) := do
  let (pp, msk) ← setupOn C D data d
  let revocation ← revocationOn D data d
  let rawTree ← Outcome.ofExcept PolicyError.toText (parse policy)
  let tree := retagTree rawTree revocation
  let (pp, rng) := registerLeaves tree.leaves pp fresh.scalars
  .ok { pp, msk, tree, rng }

omit [DecidableEq F] in
theorem reads_prepareEncrypt (policy : String) (fresh : Fresh F) (d : Disk) :
    Fs.Reads (prepareEncrypt C D data policy fresh) d (encryptOutcome C D data policy fresh d) := by
  apply (reads_loadSetup C D data d).bind
  rintro ⟨pp, msk⟩
  apply (reads_loadRevocation D data d).bind
  intro revocation
  exact (Fs.reads_ofOutcome _ d).bind fun rawTree => Fs.reads_pure _ d

/-- The package that `cmd_encrypt` makes of the file it reads. -/
def sealOutcome (file policy : String) (fresh : Fresh F) (prepared : Prepared F G₁ G₂ Gₜ) (d : Disk) :
    Outcome String (EncryptedPackage G₁) := do
  let plaintext ← Outcome.mapErr (fun _ => "reading " ++ file) (Fs.replied (d.read (cwd.join file)))
  let (package, _) ← Outcome.mapErr EnvelopeError.toText
    (Envelope.seal C A D prepared.pp plaintext prepared.tree policy fresh.dek fresh.fileNonce
      fresh.wrapNonce prepared.rng)
  .ok package

/-- The name under which a file is stored. -/
def storedName (file : String) : String := (Path.fileName file).getD "document"

/-- The event that ends `cmd_encrypt`. -/
def encryptEvent (file policy : String) (fresh : Fresh F) : AuditEvent :=
  fresh.event "system" "ENCRYPT" (newId D fresh.stamp)
    ("file=" ++ storedName file ++ " policy=" ++ policy)

/-- The disk after a package is stored. -/
def afterEncrypt (file policy : String) (fresh : Fresh F) (package : EncryptedPackage G₁) (d : Disk) :
    Disk :=
  ((PackageStore.mk (packagesDir data)).afterPut C D (storedName file) package fresh.stamp
    (d.createDirAll (packagesDir data))).append (auditPath data)
      (AuditLog.line D (encryptEvent D file policy fresh))

omit [DecidableEq F] in
/-- **`cmd_encrypt`** fails without a trace, or writes the parameters, and then fails or stores the
package and the event. -/
theorem exec_cmdEncrypt (file policy : String) (fresh : Fresh F) (d : Disk) :
    Fs.exec (cmdEncrypt C A D cwd data file policy fresh) d =
      Cmd.andThen (encryptOutcome C D data policy fresh d, d) fun prepared d =>
        Cmd.andThen (sealOutcome C A D cwd file policy fresh prepared
            (d.write (setupPath data) (setupBytes C D prepared.pp prepared.msk)),
          d.write (setupPath data) (setupBytes C D prepared.pp prepared.msk)) fun package d =>
            (.ok (), afterEncrypt C D data file policy fresh package d) := by
  rw [cmdEncrypt, Fs.exec_bind, reads_prepareEncrypt]
  congr 1
  funext prepared d
  rw [Fs.exec_bind, exec_saveSetup, Cmd.andThen_ok, Fs.exec_bind, Fs.exec_mapErr, Fs.exec_read,
    sealOutcome]
  generalize d.write (setupPath data) (setupBytes C D prepared.pp prepared.msk) = d
  cases Outcome.mapErr (fun _ => "reading " ++ file) (Fs.replied (d.read (cwd.join file))) with
  | error e => rfl
  | ok plaintext =>
    rw [Cmd.andThen_ok, ok_bind, Fs.exec_bind, Fs.exec_ofOutcome]
    cases Outcome.mapErr EnvelopeError.toText (Envelope.seal C A D prepared.pp plaintext
        prepared.tree policy fresh.dek fresh.fileNonce fresh.wrapNonce prepared.rng) with
    | error e => rfl
    | ok sealed =>
      obtain ⟨package, rng⟩ := sealed
      rw [Cmd.andThen_ok, ok_bind, Cmd.andThen_ok, exec_mapErr_bind (PackageStore.exec_open _ _),
        exec_mapErr_bind (PackageStore.exec_put C D _ _ _ _ _), exec_recordEvent]
      rfl

/-! ## Decryption -/

/-- What `cmd_decrypt` does once the package is open or refused. -/
def decided (id user out : String) (fresh : Fresh F) :
    Outcome EnvelopeError Bytes → Disk → Outcome String Unit × Disk
  | .ok plaintext, d => (.ok (), (d.write (cwd.join out) plaintext).append (auditPath data)
      (AuditLog.line D (fresh.event user "DECRYPT_SUCCESS" id ("wrote " ++ out))))
  | .error (.error e), d => (Outcome.err e.toText, d.append (auditPath data)
      (AuditLog.line D (fresh.event user "DECRYPT_DENIED" id e.toText)))
  | .error (.panic msg), d => (.error (.panic msg), d)

/-- The parameters and the key that `cmd_decrypt` loads. -/
def keyOutcome (user : String) (d : Disk) :
    Outcome String (PublicParams G₁ G₂ Gₜ × UserSecretKey G₂) := do
  let (pp, _) ← setupOn C D data d
  let usk ← userKeyOn C D data user d
  .ok (pp, usk)

/-- The package that `cmd_decrypt` loads. -/
def storedOn (id : String) (d : Disk) : Outcome String (EncryptedPackage G₁) :=
  Outcome.mapErr StorageError.toText ((PackageStore.mk (packagesDir data)).packageOn C D id d)

/-- **`cmd_decrypt`** fails without an event if it cannot load what it needs. -/
theorem exec_cmdDecrypt (id user out : String) (fresh : Fresh F) (d : Disk) :
    Fs.exec (cmdDecrypt C A D cwd data id user out fresh) d =
      Cmd.andThen (keyOutcome C D data user d, d) fun key d =>
        Cmd.andThen (storedOn C D data id (d.createDirAll (packagesDir data)),
          d.createDirAll (packagesDir data)) fun package d =>
            decided D cwd data id user out fresh (Envelope.open C A D key.1 key.2 package) d := by
  rw [cmdDecrypt, Fs.exec_bind, reads_loadSetup, keyOutcome]
  cases setupOn C D data d with
  | error e => rfl
  | ok setup =>
    obtain ⟨pp, msk⟩ := setup
    rw [Cmd.andThen_ok, ok_bind]
    dsimp only
    rw [Fs.exec_bind, reads_loadUserKey]
    cases userKeyOn C D data user d with
    | error e => rfl
    | ok usk =>
      rw [Cmd.andThen_ok, ok_bind, Cmd.andThen_ok, exec_mapErr_bind (PackageStore.exec_open _ _),
        Fs.exec_bind, Fs.exec_mapErr, PackageStore.reads_get, storedOn]
      congr 1
      funext package d
      rw [Fs.exec_bind, Fs.exec_attempt, Fs.exec_ofOutcome]
      rcases Envelope.open C A D pp usk package with (e | msg) | plaintext
      · simp only [Cmd.caught, Cmd.andThen_ok, Fs.exec_bind, exec_recordEvent, Fs.exec_ofOutcome]
        rfl
      · rfl
      · simp only [Cmd.caught, Cmd.andThen_ok, Fs.exec_bind, exec_recordEvent, Fs.exec_mapErr,
          Fs.exec_write, Outcome.mapErr_ok]
        rfl

/-! ## Revocation -/

/-- The event that ends `cmd_revoke_attribute`. -/
def revokeAttributeEvent (attr : String) (epoch : UInt64) (fresh : Fresh F) : AuditEvent :=
  fresh.event "system" "REVOKE_ATTRIBUTE" attr ("new_epoch=" ++ toString epoch.toNat)

omit [Field F] [DecidableEq F] in
theorem exec_cmdRevokeAttribute (attr : String) (fresh : Fresh F) (d : Disk) :
    Fs.exec (cmdRevokeAttribute D data attr fresh) d =
      Cmd.andThen (revocationOn D data d, d) fun rl d =>
        (.ok (), (d.write rl.path (RevocationList.encode D (rl.bumped attr).state)).append
          (auditPath data) (AuditLog.line D
            (revokeAttributeEvent attr (rl.currentEpoch attr + 1) fresh))) := by
  rw [cmdRevokeAttribute, Fs.exec_bind, reads_loadRevocation]
  congr 1
  funext rl d
  have hrun : Fs.exec (dropReceiver (rl.revokeAttribute D attr)) d =
      (.ok (rl.currentEpoch attr + 1),
        d.write rl.path (RevocationList.encode D (rl.bumped attr).state)) := rfl
  rw [exec_mapErr_bind hrun, exec_recordEvent]
  rfl

/-- The event that ends `cmd_revoke_user`. -/
def revokeUserEvent (user : String) (fresh : Fresh F) : AuditEvent :=
  fresh.event "system" "REVOKE_USER" user "blocked from future key issuance"

omit [Field F] [DecidableEq F] in
theorem exec_cmdRevokeUser (user : String) (fresh : Fresh F) (d : Disk) :
    Fs.exec (cmdRevokeUser D data user fresh) d =
      Cmd.andThen (revocationOn D data d, d) fun rl d =>
        (.ok (), (d.write (rl.withUser user).path
          (RevocationList.encode D (rl.withUser user).state)).append
            (auditPath data) (AuditLog.line D (revokeUserEvent user fresh))) := by
  rw [cmdRevokeUser, Fs.exec_bind, reads_loadRevocation]
  congr 1
  funext rl d
  have hrun : Fs.exec (dropReceiver (rl.revokeUser D user)) d = (.ok (),
      d.write (rl.withUser user).path (RevocationList.encode D (rl.withUser user).state)) := rfl
  rw [exec_mapErr_bind hrun, exec_recordEvent]
  rfl

end SecureABE.Cli
