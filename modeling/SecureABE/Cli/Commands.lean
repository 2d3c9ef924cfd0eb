import SecureABE.Cli.Claims
import SecureABE.Cli.Files
import SecureABE.Cli.Tagging
import SecureABE.Envelope.Sealing
import SecureABE.Policy.Parsing

/-!
# The commands

The `cmd_..` functions of `cli/src/main.rs`, without what they print. `Fresh` is what a command draws
from the generators and reads off the clock. `cmd_issue` and `cmd_encrypt` are cut in two: what they do
up to the first write (`prepareIssue`, `prepareEncrypt`), which only reads the disk, and the rest.
-/

namespace SecureABE.Cli

open Rust SecureABE.Core SecureABE.Policy SecureABE.Revocation SecureABE.Authorities SecureABE.Audit
  SecureABE.Envelope SecureABE.Storage

variable {F G₁ G₂ Gₜ : Type} [Field F] [DecidableEq F] [AddCommGroup G₁] [Module F G₁]
  [AddCommGroup G₂] [Module F G₂] [AddCommGroup Gₜ] [Module F Gₜ]

/-- What a command draws from the generators and reads off the clock. -/
structure Fresh (F : Type) where
  scalars : Rng F
  dek : ByteArr 32
  fileNonce : ByteArr 12
  wrapNonce : ByteArr 12
  stamp : Stamp
  timestampUnix : UInt64

variable (C : Curve F G₁ G₂ Gₜ) (A : Cipher) (D : Codec) (cwd data : Path)

/-- `AuditEvent::new`. -/
def Fresh.event (fresh : Fresh F) (actor action subject detail : String) : AuditEvent :=
  { timestampUnix := fresh.timestampUnix, actor, action, subject, detail }

/-! ## Setup and authorities -/

def cmdSetup (fresh : Fresh F) : FileCmd String Unit := do
  Cmd.mapErr IoError.toText (Fs.createDirAll data)
  let ((pp, msk), _) := setup C fresh.scalars
  saveSetup C D data pp msk
  saveRegistry D data AuthorityRegistry.new
  let _ ← Cmd.mapErr StorageError.toText (PackageStore.open (packagesDir data))
  recordEvent D data
    (fresh.event "system" "SETUP" "-" "generated master secret and public parameters")

/-- The prefixes of a comma-separated list. -/
def splitControls (controls : String) : List String :=
  ((split ',' controls.toList).map fun s => String.ofList (trim s)).filter fun s => s ≠ ""

def cmdRegisterAuthority (name controls : String) : FileCmd String Unit := do
  let reg ← loadRegistry D data
  saveRegistry D data (reg.register name (splitControls controls))

/-! ## Issuing -/

variable (F G₁ G₂ Gₜ) in
/-- The parameters, the attributes and the generator in the loop over the claims. -/
structure Granting where
  pp : PublicParams G₁ G₂ Gₜ
  flatAttrs : List String
  rng : Rng F

/-- One attribute of a claim: its tag is registered and granted. -/
def Granting.add (revocation : RevocationList) (st : Granting F G₁ G₂ Gₜ) (a : String) :
    Granting F G₁ G₂ Gₜ :=
  let tagged := revocation.tag a
  let (pp, rng) := registerAttribute st.pp tagged st.rng
  { pp, flatAttrs := st.flatAttrs ++ [tagged], rng }

/-- The loop over the claims. -/
def grantClaims (registry : AuthorityRegistry) (revocation : RevocationList) (authority : String) :
    List Claim → Granting F G₁ G₂ Gₜ → Outcome String (Granting F G₁ G₂ Gₜ)
  | [], st => .ok st
  | claim :: claims, st => do
    Outcome.mapErr AuthorityError.toText (registry.checkPermission authority claim)
    grantClaims registry revocation authority claims (claim.resolve.foldl (Granting.add revocation) st)

/-- The names of a key on file are granted again. -/
def mergeExisting (flatAttrs : List String) : Except String (UserSecretKey G₂) → List String
  | .ok existing => existing.attributeNames.foldl
      (fun flatAttrs a => if a ∈ flatAttrs then flatAttrs else flatAttrs ++ [a]) flatAttrs
  | .error _ => flatAttrs

variable (F G₁ G₂ Gₜ) in
/-- A key before it is written, with the parameters it is made with. -/
structure Issued where
  pp : PublicParams G₁ G₂ Gₜ
  msk : MasterSecret F
  flatAttrs : List String
  usk : UserSecretKey G₂

/-- `keygen` over the granted attributes and those of the key on file. -/
def mintKey (msk : MasterSecret F) (user : String) (st : Granting F G₁ G₂ Gₜ)
    (existing : Except String (UserSecretKey G₂)) : Outcome String (Issued F G₁ G₂ Gₜ) := do
  let flatAttrs := mergeExisting st.flatAttrs existing
  let (usk, _) ← Outcome.mapErr AbeError.toText (keygen st.pp msk user flatAttrs st.rng)
  .ok { pp := st.pp, msk, flatAttrs, usk }

/-- A request to issue a key. -/
structure IssueArgs where
  authority : String
  user : String
  flags : List String
  texts : List String
  numerics : List String

def revokedMessage (user : String) : String :=
  "user '" ++ user ++ "' has been revoked and cannot be issued new keys"

/-- `cmd_issue` up to its first write. -/
def prepareIssue (args : IssueArgs) (fresh : Fresh F) : FileCmd String (Issued F G₁ G₂ Gₜ) := do
  let (pp, msk) ← loadSetup C D data
  let registry ← loadRegistry D data
  let revocation ← loadRevocation D data
  -- the text of the file is looked at for a hint that is not given
  let _ ← Cmd.attempt (Fs.readToString (revocationPath data))
  let revCheck ← loadRevocation D data
  if revCheck.isUserRevoked args.user = true then
    Cmd.ofOutcome (Outcome.err (revokedMessage args.user))
  else do
    let claims ← Cmd.ofOutcome (parseClaims args.flags args.texts args.numerics)
    let st ← Cmd.ofOutcome (grantClaims registry revocation args.authority claims
      { pp, flatAttrs := [], rng := fresh.scalars })
    let existing ← Cmd.attempt (loadUserKey C D data args.user)
    Cmd.ofOutcome (mintKey msk args.user st existing)

def cmdIssue (args : IssueArgs) (fresh : Fresh F) : FileCmd String Unit := do
  let key ← prepareIssue C D data args fresh
  saveSetup C D data key.pp key.msk
  saveUserKey C D data args.user key.usk
  recordEvent D data (fresh.event args.authority "ISSUE_KEY" args.user
    ("attributes=" ++ ",".intercalate key.flatAttrs))

/-! ## Encryption -/

/-- The loop that registers the leaves of a tree. -/
def registerLeaves (leaves : List String) (pp : PublicParams G₁ G₂ Gₜ) (rng : Rng F) :
    PublicParams G₁ G₂ Gₜ × Rng F :=
  leaves.foldl (fun st leaf => registerAttribute st.1 leaf st.2) (pp, rng)

variable (F G₁ G₂ Gₜ) in
/-- The tagged tree of a policy and the parameters with its leaves. -/
structure Prepared where
  pp : PublicParams G₁ G₂ Gₜ
  msk : MasterSecret F
  tree : AccessTree
  rng : Rng F

/-- `cmd_encrypt` up to its first write. -/
def prepareEncrypt (policy : String) (fresh : Fresh F) :
    FileCmd String (Prepared F G₁ G₂ Gₜ) := do
  let (pp, msk) ← loadSetup C D data
  let revocation ← loadRevocation D data
  let rawTree ← Cmd.ofOutcome (Outcome.ofExcept PolicyError.toText (parse policy))
  let tree := retagTree rawTree revocation
  let (pp, rng) := registerLeaves tree.leaves pp fresh.scalars
  pure { pp, msk, tree, rng }

def cmdEncrypt (file policy : String) (fresh : Fresh F) : FileCmd String Unit := do
  let prepared ← prepareEncrypt C D data policy fresh
  saveSetup C D data prepared.pp prepared.msk
  let plaintext ← Cmd.mapErr (fun _ => "reading " ++ file) (Fs.read (cwd.join file))
  let (package, _) ← Cmd.ofOutcome (Outcome.mapErr EnvelopeError.toText
    (Envelope.seal C A D prepared.pp plaintext prepared.tree policy fresh.dek fresh.fileNonce
      fresh.wrapNonce prepared.rng))
  let store ← Cmd.mapErr StorageError.toText (PackageStore.open (packagesDir data))
  let filename := (Path.fileName file).getD "document"
  let id ← Cmd.mapErr StorageError.toText (store.put C D filename package fresh.stamp)
  recordEvent D data (fresh.event "system" "ENCRYPT" id
    ("file=" ++ filename ++ " policy=" ++ policy))

/-! ## Decryption -/

def cmdDecrypt (id user out : String) (fresh : Fresh F) : FileCmd String Unit := do
  let (pp, _) ← loadSetup C D data
  let usk ← loadUserKey C D data user
  let store ← Cmd.mapErr StorageError.toText (PackageStore.open (packagesDir data))
  let package ← Cmd.mapErr StorageError.toText (store.get C D id)
  match ← Cmd.attempt (Cmd.ofOutcome (Envelope.open C A D pp usk package)) with
  | .ok plaintext => do
    Cmd.mapErr IoError.toText (Fs.write (cwd.join out) plaintext)
    recordEvent D data (fresh.event user "DECRYPT_SUCCESS" id ("wrote " ++ out))
  | .error e => do
    recordEvent D data (fresh.event user "DECRYPT_DENIED" id e.toText)
    Cmd.ofOutcome (Outcome.err e.toText)

/-! ## Revocation -/

/-- A call through `&mut self` whose receiver is not used again. -/
def dropReceiver {ε α σ : Type} (x : Prog FileOp.Reply (Outcome ε α × σ)) : FileCmd ε α :=
  Prog.bind x fun r => .pure r.1

def cmdRevokeAttribute (attr : String) (fresh : Fresh F) : FileCmd String Unit := do
  let revocation ← loadRevocation D data
  let epoch ← Cmd.mapErr RevocationError.toText (dropReceiver (revocation.revokeAttribute D attr))
  recordEvent D data (fresh.event "system" "REVOKE_ATTRIBUTE" attr
    ("new_epoch=" ++ toString epoch.toNat))

def cmdRevokeUser (user : String) (fresh : Fresh F) : FileCmd String Unit := do
  let revocation ← loadRevocation D data
  Cmd.mapErr RevocationError.toText (dropReceiver (revocation.revokeUser D user))
  recordEvent D data (fresh.event "system" "REVOKE_USER" user "blocked from future key issuance")

/-! ## The command line -/

/-- A command with its arguments. -/
inductive Command
  | setup
  | registerAuthority (name controls : String)
  | issue (args : IssueArgs)
  | encrypt (file policy : String)
  | decrypt (id user out : String)
  | revokeAttribute (attr : String)
  | revokeUser (user : String)

/-- The `match` of `main`. -/
def Command.run (command : Command) (fresh : Fresh F) : FileCmd String Unit :=
  match command with
  | .setup => cmdSetup C D data fresh
  | .registerAuthority name controls => cmdRegisterAuthority D data name controls
  | .issue args => cmdIssue C D data args fresh
  | .encrypt file policy => cmdEncrypt C A D cwd data file policy fresh
  | .decrypt id user out => cmdDecrypt C A D cwd data id user out fresh
  | .revokeAttribute attr => cmdRevokeAttribute D data attr fresh
  | .revokeUser user => cmdRevokeUser D data user fresh

end SecureABE.Cli
