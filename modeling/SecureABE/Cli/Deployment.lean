import SecureABE.Cli.Effects
import SecureABE.Cli.Layout

/-!
# Deployments in memory

A `World` is what a deployment consists of, as values. A disk represents a world if its files are the
encodings of the world's parts (`Represents`). As far as the libraries read back what they wrote, the
commands then load these parts (`Represents.setupOn_eq` and so on), and what a command writes
represents the world with the new parts (`Represents.afterIssue` and so on).
-/

namespace SecureABE.Cli

open Rust SecureABE.Core SecureABE.Policy SecureABE.Revocation SecureABE.Authorities SecureABE.Audit
  SecureABE.Envelope SecureABE.Storage

variable {F G₁ G₂ Gₜ : Type} [Field F] [DecidableEq F] [AddCommGroup G₁] [Module F G₁]
  [AddCommGroup G₂] [Module F G₂] [AddCommGroup Gₜ] [Module F Gₜ]

/-- A package on file, with the text of its manifest. -/
structure Filed (G₁ : Type) where
  package : EncryptedPackage G₁
  manifest : Bytes

variable (F G₁ G₂ Gₜ) in
/-- What a deployment consists of. -/
structure World where
  pp : PublicParams G₁ G₂ Gₜ
  msk : MasterSecret F
  registry : AuthorityRegistry
  /-- None before the first revocation. -/
  revocation : Option RevocationState
  keys : String → Option (UserSecretKey G₂)
  packages : String → Option (Filed G₁)
  log : Bytes

variable (C : Curve F G₁ G₂ Gₜ) (D : Codec) (data : Path)

/-- The contents of the files. -/
def World.contents (w : World F G₁ G₂ Gₜ) : File → Option Bytes
  | .setup => some (setupBytes C D w.pp w.msk)
  | .authorities => some (registryBytes D w.registry)
  | .revocation => w.revocation.map (RevocationList.encode D)
  | .audit => some w.log
  | .key user => (w.keys user).map (userKeyBytes C D)
  | .sealedDoc id => (w.packages id).map fun filed => PackageStore.sealedBytes D filed.package
  | .wrappedKey id => (w.packages id).map fun filed => PackageStore.keyBytes C D filed.package
  | .manifest id => (w.packages id).map Filed.manifest

/-- A package whose numbers fit the integers they are read into. -/
def Readable (package : EncryptedPackage G₁) : Prop :=
  package.keyCiphertext.tree.ThresholdsFit ∧
    ∀ l ∈ package.keyCiphertext.leaves, ∀ i ∈ l.path, i < 2 ^ 64

/-- The wrapped key of a package is read back as it was written. -/
def Filed.ReadsBack (filed : Filed G₁) : Prop :=
  D.fromStr (ciphertextToJson C D filed.package.keyCiphertext) =
    .ok (ciphertextDto C D filed.package.keyCiphertext).toJson

/-- The disk holds the deployment. -/
structure Represents (d : Disk) (w : World F G₁ G₂ Gₜ) : Prop where
  view : view data d = w.contents C D
  noDir : File.revocation.path data ∉ d.dirs
  packageDir : ∀ id filed, w.packages id = some filed →
    d.has (data.under ["packages", id]) = true
  deployed : Deployed C w.msk w.pp
  readable : ∀ id filed, w.packages id = some filed → Path.IsName id ∧ Readable filed.package

/-- The revocation list as it is loaded. -/
def World.revocationList (w : World F G₁ G₂ Gₜ) : RevocationList :=
  ⟨revocationPath data, w.revocation.getD default⟩

/-! ## Loading -/

omit [DecidableEq F] in
/-- Parameters that were saved are read back. -/
theorem setupOn_of_lookup {C : Curve F G₁ G₂ Gₜ} {D : Codec} {data : Path} (hC : C.ReadsBack)
    (hX : D.HexReadsBack) (hD : D.ReadsShallow) {d : Disk} {pp : PublicParams G₁ G₂ Gₜ}
    {msk : MasterSecret F}
    (hpp : pp = { g1 := C.g1, g2 := C.g2, h := msk.beta • C.g1,
                  eggAlpha := msk.alpha • C.pairing C.g1 C.g2, attributes := pp.attributes })
    (h : d.files.lookup (setupPath data) = some (setupBytes C D pp msk)) :
    setupOn C D data d = .ok (pp, msk) := by
  have hdepth := (setupBundleDto C D pp msk).depth_toJson
  rw [setupOn, Disk.read_of_lookup h, setupBytes, Fs.textOf_utf8, Outcome.mapErr_ok, ok_bind,
    setupBundleFromJson_toJson hC hX hpp (hD _ (by omega)), Outcome.mapErr_ok]

omit [DecidableEq F] in
/-- A key that was saved is read back. -/
theorem userKeyOn_of_lookup {C : Curve F G₁ G₂ Gₜ} {D : Codec} {data : Path} (hC : C.ReadsBack)
    (hX : D.HexReadsBack) (hD : D.ReadsShallow) {d : Disk} {user : String} {usk : UserSecretKey G₂}
    (h : d.files.lookup (keyFile data user) = some (userKeyBytes C D usk)) :
    userKeyOn C D data user d = .ok usk := by
  have hdepth := (userKeyDto C D usk).depth_toJson
  rw [userKeyOn, Disk.read_of_lookup h, userKeyBytes, Fs.textOf_utf8, Outcome.mapErr_ok, ok_bind,
    userKeyFromJson_toJson hC hX (hD _ (by omega)), Outcome.mapErr_ok]

omit [DecidableEq F] in
/-- Parameters that the program wrote are read back. -/
theorem setupOn_of_view {C : Curve F G₁ G₂ Gₜ} {D : Codec} {data : Path} (hC : C.ReadsBack)
    (hX : D.HexReadsBack) (hD : D.ReadsShallow) {d : Disk} {pp : PublicParams G₁ G₂ Gₜ}
    {msk : MasterSecret F} (hpp : Deployed C msk pp)
    (h : view data d .setup = some (setupBytes C D pp msk)) : setupOn C D data d = .ok (pp, msk) := by
  apply setupOn_of_lookup hC hX hD hpp.eq
  rw [setupPath_eq]
  exact h

/-- A revocation list that was saved is read back. -/
theorem revocationOn_of_lookup {D : Codec} {data : Path} (hD : D.ReadsShallow) {d : Disk}
    {st : RevocationState} (h : d.files.lookup (revocationPath data) = some (RevocationList.encode D st)) :
    revocationOn D data d = .ok ⟨revocationPath data, st⟩ := by
  have hstate : revocationStateOn D data d = .ok st := by
    rw [revocationStateOn, if_pos (Disk.has_of_lookup h), Disk.read_of_lookup h, RevocationList.encode,
      Fs.textOf_utf8, Outcome.mapErr_ok, ok_bind, RevocationState.decode,
      hD _ (st.depth_toJson.trans_lt (by decide)), ok_bind, RevocationState.fromJson_toJson,
      Outcome.ofExcept_ok]
  rw [revocationOn, hstate, ok_bind, Outcome.mapErr_ok]

section KeyFile

variable {C D data} {d : Disk} {user : String} (huser : '/' ∉ user.toList)
include huser

omit [DecidableEq F]

/-- Without a file there is no key. -/
theorem userKeyOn_of_view_none (h : view data d (.key user) = none) :
    (userKeyOn C D data user d : Outcome String (UserSecretKey G₂)) =
      Outcome.err ("no key on file for user '" ++ user ++ "'; run `issue` first") := by
  rw [userKeyOn, keyFile_eq huser, Disk.read,
    show d.files.lookup ((File.key user).path data) = none from h]
  rfl

/-- A key file that the program wrote is read back. -/
theorem userKeyOn_of_view (hC : C.ReadsBack) (hX : D.HexReadsBack) (hD : D.ReadsShallow)
    {usk : UserSecretKey G₂} (h : view data d (.key user) = some (userKeyBytes C D usk)) :
    userKeyOn C D data user d = .ok usk := by
  apply userKeyOn_of_lookup hC hX hD
  rw [keyFile_eq huser]
  exact h

end KeyFile

namespace Represents

variable {C D data} {d : Disk} {w : World F G₁ G₂ Gₜ} (h : Represents C D data d w)
include h

omit [DecidableEq F] in
theorem read_eq {f : File} {b : Bytes} (hf : w.contents C D f = some b) :
    d.read (f.path data) = .ok b := by
  apply read_eq_of_view
  rw [h.view, hf]

omit [DecidableEq F] in
/-- A user without a key file. -/
theorem userKeyOn_eq_err {user : String} (huser : '/' ∉ user.toList) (hkey : w.keys user = none) :
    userKeyOn C D data user d =
      Outcome.err ("no key on file for user '" ++ user ++ "'; run `issue` first") := by
  apply userKeyOn_of_view_none huser
  rw [h.view, World.contents, hkey]
  rfl

section Loading

variable (hC : C.ReadsBack) (hX : D.HexReadsBack) (hD : D.ReadsShallow)
include hD

omit [DecidableEq F] in
theorem registryOn_eq : registryOn D data d = .ok w.registry := by
  have hfile : d.files.lookup (File.authorities.path data) = some (registryBytes D w.registry) :=
    congrFun h.view .authorities
  rw [registryOn, authoritiesPath_eq, if_neg (by simp [Disk.has_of_lookup hfile]),
    Disk.read_of_lookup hfile, registryBytes, Fs.textOf_utf8, Outcome.mapErr_ok, ok_bind,
    hD _ (w.registry.depth_toJson.trans_lt (by decide)), ok_bind, AuthorityRegistry.fromJson_toJson,
    Outcome.ofExcept_ok]

omit [DecidableEq F] in
theorem revocationOn_eq : revocationOn D data d = .ok (w.revocationList data) := by
  have hfile : d.files.lookup (revocationPath data) = w.revocation.map (RevocationList.encode D) := by
    rw [revocationPath_eq]
    exact congrFun h.view .revocation
  unfold World.revocationList
  cases hst : w.revocation with
  | none =>
    rw [hst, Option.map_none] at hfile
    have hnoDir := h.noDir
    rw [← revocationPath_eq] at hnoDir
    have hhas : d.has (revocationPath data) = false := by
      simp [Disk.has, AList.lookup_eq_none.1 hfile, hnoDir]
    unfold revocationOn revocationStateOn
    rw [if_neg (by simp [hhas])]
    rfl
  | some st =>
    rw [hst, Option.map_some] at hfile
    rw [revocationOn_of_lookup hD hfile, Option.getD_some]

include hC hX

omit [DecidableEq F]

theorem setupOn_eq : setupOn C D data d = .ok (w.pp, w.msk) := by
  apply setupOn_of_view hC hX hD h.deployed
  rw [h.view, World.contents]

theorem userKeyOn_eq {user : String} (huser : '/' ∉ user.toList) {usk : UserSecretKey G₂}
    (hkey : w.keys user = some usk) : userKeyOn C D data user d = .ok usk := by
  apply userKeyOn_of_view huser hC hX hD
  rw [h.view, World.contents, hkey]
  rfl

theorem storedOn_eq {id : String} {filed : Filed G₁} (hfiled : w.packages id = some filed)
    (hread : filed.ReadsBack C D) : storedOn C D data id d = .ok filed.package := by
  obtain ⟨hid, htree, hleaves⟩ := h.readable id filed hfiled
  have hsealed : d.files.lookup ((File.sealedDoc id).path data) =
      some (PackageStore.sealedBytes D filed.package) := by
    have := congrFun h.view (.sealedDoc id)
    rwa [World.contents, hfiled] at this
  have hwrapped : d.files.lookup ((File.wrappedKey id).path data) =
      some (PackageStore.keyBytes C D filed.package) := by
    have := congrFun h.view (.wrappedKey id)
    rwa [World.contents, hfiled] at this
  have hdir := h.packageDir id filed hfiled
  rw [← packageDir_eq hid] at hdir
  rw [← sealedPath_eq hid] at hsealed
  rw [← wrappedKeyPath_eq hid] at hwrapped
  have hpackage := PackageStore.packageOn_eq (packageStore data) id filed.package hdir hsealed hwrapped
  have hshallow := hD filed.package.sealedDoc.toJson (lt_of_le_of_lt (depth_sealedDocument _) (by decide))
  rw [PackageStore.decodeSealed_toJson hshallow, ok_bind, PackageStore.decodeKey,
    ciphertextFromJson_toJson hC hX htree hleaves hread, Outcome.mapErr_ok, ok_bind] at hpackage
  rw [storedOn, ← packageStore, hpackage, Outcome.mapErr_ok]

end Loading

end Represents

/-! ## Changes -/

namespace World

def withParams (w : World F G₁ G₂ Gₜ) (pp : PublicParams G₁ G₂ Gₜ) : World F G₁ G₂ Gₜ := { w with pp }

def withRegistry (w : World F G₁ G₂ Gₜ) (registry : AuthorityRegistry) : World F G₁ G₂ Gₜ :=
  { w with registry }

def withRevocation (w : World F G₁ G₂ Gₜ) (st : RevocationState) : World F G₁ G₂ Gₜ :=
  { w with revocation := some st }

def withKey (w : World F G₁ G₂ Gₜ) (user : String) (usk : UserSecretKey G₂) : World F G₁ G₂ Gₜ :=
  { w with keys := Function.update w.keys user (some usk) }

def withPackage (w : World F G₁ G₂ Gₜ) (id : String) (filed : Filed G₁) : World F G₁ G₂ Gₜ :=
  { w with packages := Function.update w.packages id (some filed) }

omit [Field F] [DecidableEq F] [AddCommGroup G₁] [Module F G₁] [AddCommGroup G₂] [Module F G₂]
  [AddCommGroup Gₜ] [Module F Gₜ] in
theorem keys_withKey (w : World F G₁ G₂ Gₜ) (user : String) (usk : UserSecretKey G₂) (user' : String) :
    (w.withKey user usk).keys user' = if user' = user then some usk else w.keys user' :=
  Function.update_apply ..

omit [Field F] [DecidableEq F] [AddCommGroup G₁] [Module F G₁] [AddCommGroup G₂] [Module F G₂]
  [AddCommGroup Gₜ] [Module F Gₜ] in
theorem packages_withPackage (w : World F G₁ G₂ Gₜ) (id : String) (filed : Filed G₁) (id' : String) :
    (w.withPackage id filed).packages id' = if id' = id then some filed else w.packages id' :=
  Function.update_apply ..

def logged (w : World F G₁ G₂ Gₜ) (event : AuditEvent) : World F G₁ G₂ Gₜ :=
  { w with log := w.log ++ AuditLog.line D event }

end World

namespace Represents

variable {C D data} {d : Disk} {w : World F G₁ G₂ Gₜ} (h : Represents C D data d w)
include h

omit [DecidableEq F]

/-- A write to one of the files. -/
theorem write {w' : World F G₁ G₂ Gₜ} {f : File} {b : Bytes}
    (hcontents : w'.contents C D = Function.update (w.contents C D) f (some b))
    (hdeployed : Deployed C w'.msk w'.pp) (hpackages : w'.packages = w.packages) :
    Represents C D data (d.write (f.path data) b) w' where
  view := by rw [view_write, h.view, hcontents]
  noDir := h.noDir
  packageDir := fun id filed hfiled =>
    Disk.has_write (h.packageDir id filed (hpackages ▸ hfiled)) _ _
  deployed := hdeployed
  readable := fun id filed hfiled => h.readable id filed (hpackages ▸ hfiled)

/-- A write to any other file. -/
theorem write_of_not_own {p : Path} (hp : ¬ Own data p) (b : Bytes) :
    Represents C D data (d.write p b) w where
  view := by rw [view_write_of_not_own hp, h.view]
  noDir := h.noDir
  packageDir := fun id filed hfiled => Disk.has_write (h.packageDir id filed hfiled) _ _
  deployed := h.deployed
  readable := h.readable

theorem createDirAll (cs : List String) (hcs : ¬ ["revocation.json"] <+: cs) :
    Represents C D data (d.createDirAll (data.under cs)) w where
  view := h.view
  noDir := revocation_notMem_dirs h.noDir cs hcs
  packageDir := fun id filed hfiled => Disk.has_createDirAll (h.packageDir id filed hfiled) _
  deployed := h.deployed
  readable := h.readable

theorem packagesDir : Represents C D data (d.createDirAll (packagesDir data)) w := by
  rw [packagesDir_eq]
  exact h.createDirAll _ (by decide)

theorem setup {pp : PublicParams G₁ G₂ Gₜ} (hpp : Deployed C w.msk pp) :
    Represents C D data (d.write (setupPath data) (setupBytes C D pp w.msk)) (w.withParams pp) := by
  rw [setupPath_eq]
  refine h.write ?_ hpp rfl
  funext f
  cases f <;> rfl

theorem registry (registry : AuthorityRegistry) :
    Represents C D data (d.write (authoritiesPath data) (registryBytes D registry))
      (w.withRegistry registry) := by
  rw [authoritiesPath_eq]
  refine h.write ?_ h.deployed rfl
  funext f
  cases f <;> rfl

theorem revocation (st : RevocationState) :
    Represents C D data (d.write (revocationPath data) (RevocationList.encode D st))
      (w.withRevocation st) := by
  rw [revocationPath_eq]
  refine h.write ?_ h.deployed rfl
  funext f
  cases f <;> rfl

theorem event (event : AuditEvent) :
    Represents C D data (d.append (auditPath data) (AuditLog.line D event)) (w.logged D event) := by
  have hlog : d.contents (File.audit.path data) = w.log :=
    congrArg (Option.getD · []) (congrFun h.view .audit)
  rw [auditPath_eq, Disk.append, hlog]
  refine h.write ?_ h.deployed rfl
  funext f
  cases f <;> rfl

theorem key {user : String} (huser : '/' ∉ user.toList) (usk : UserSecretKey G₂) :
    Represents C D data ((d.createDirAll (keysDir data)).write (keyFile data user)
      (userKeyBytes C D usk)) (w.withKey user usk) := by
  have hdir : Represents C D data (d.createDirAll (keysDir data)) w := by
    rw [keysDir_eq]
    exact h.createDirAll _ (by decide)
  rw [keyFile_eq huser]
  refine hdir.write ?_ h.deployed rfl
  funext f
  cases f with
  | key user' =>
    by_cases hu : user' = user
    · subst hu
      simp [World.contents, World.withKey]
    · simp [World.contents, World.withKey, hu]
  | _ => rfl

theorem package (hX : D.HexReadsBack) (originalFilename : String) {package : EncryptedPackage G₁}
    (hpackage : Readable package) (stamp : Stamp) :
    Represents C D data ((packageStore data).afterPut C D originalFilename package stamp d)
      (w.withPackage (newId D stamp)
        ⟨package, PackageStore.manifestBytes D originalFilename package stamp⟩) := by
  have hid := isName_newId hX stamp
  have hdir := h.createDirAll ["packages", newId D stamp] (by simp)
  rw [PackageStore.afterPut]
  rw [packageDir_eq hid, sealedPath_eq hid, wrappedKeyPath_eq hid, manifestPath_eq hid]
  refine ⟨?_, hdir.noDir, ?_, h.deployed, ?_⟩
  · rw [view_write, view_write, view_write, hdir.view]
    funext f
    cases f with
    | sealedDoc id | wrappedKey id | manifest id =>
      by_cases hu : id = newId D stamp
      · subst hu
        simp [World.contents, World.withPackage]
      · simp [World.contents, World.withPackage, hu]
    | _ => rfl
  · intro id filed hfiled
    refine Disk.has_write (Disk.has_write (Disk.has_write ?_ _ _) _ _) _ _
    by_cases hu : id = newId D stamp
    · subst hu
      exact Disk.has_createDirAll_self _ _
    · rw [World.packages_withPackage, if_neg hu] at hfiled
      exact hdir.packageDir id filed hfiled
  · intro id filed hfiled
    by_cases hu : id = newId D stamp
    · rw [World.packages_withPackage, if_pos hu] at hfiled
      rw [hu, ← Option.some.inj hfiled]
      exact ⟨hid, hpackage⟩
    · rw [World.packages_withPackage, if_neg hu] at hfiled
      exact h.readable id filed hfiled

/-! ### The commands -/

/-- The deployment after a key is issued. -/
theorem afterIssue {args : IssueArgs} (huser : '/' ∉ args.user.toList) (fresh : Fresh F)
    {key : Issued F G₁ G₂ Gₜ} (hpp : Deployed C w.msk key.pp) (hmsk : key.msk = w.msk) :
    Represents C D data (afterIssue C D data args fresh key d)
      (((w.withParams key.pp).withKey args.user key.usk).logged D
        (issueEvent args fresh key.flatAttrs)) := by
  rw [Cli.afterIssue, hmsk]
  exact ((h.setup hpp).key huser key.usk).event _

/-- The deployment after a package is stored. -/
theorem afterEncrypt (hX : D.HexReadsBack) (file policy : String) (fresh : Fresh F)
    {package : EncryptedPackage G₁} (hpackage : Readable package) :
    Represents C D data (afterEncrypt C D data file policy fresh package d)
      ((w.withPackage (newId D fresh.stamp)
        ⟨package, PackageStore.manifestBytes D (storedName file) package fresh.stamp⟩).logged D
          (encryptEvent D file policy fresh)) := by
  exact (h.packagesDir.package hX _ hpackage _).event _

end Represents

/-! ## The start -/

/-- None of the files of a deployment is there. -/
structure Vacant (d : Disk) : Prop where
  view : view data d = fun _ => none
  noDir : File.revocation.path data ∉ d.dirs

/-- The deployment after its setup. -/
def World.start (fresh : Fresh F) : World F G₁ G₂ Gₜ where
  pp := (setup C fresh.scalars).1.1
  msk := (setup C fresh.scalars).1.2
  registry := AuthorityRegistry.new
  revocation := none
  keys := fun _ => none
  packages := fun _ => none
  log := AuditLog.line D (setupEvent fresh)

variable {data}

omit [DecidableEq F] in
/-- **A setup starts a deployment.** -/
theorem represents_cmdSetup {d : Disk} (hd : Vacant data d) (fresh : Fresh F) :
    Represents C D data (Fs.exec (cmdSetup C D data fresh) d).2 (World.start C D fresh) := by
  rw [exec_cmdSetup]
  dsimp only
  rw [setupPath_eq, authoritiesPath_eq, packagesDir_eq, auditPath_eq]
  refine ⟨?_, ?_, ?_, deployed_setup C fresh.scalars, ?_⟩
  · rw [view_append, view_createDirAll, view_write, view_write, view_createDirAll, hd.view]
    funext f
    cases f <;> rfl
  · have hnoDir := revocation_notMem_dirs hd.noDir [] (by simp)
    rw [Path.under_nil] at hnoDir
    exact revocation_notMem_dirs hnoDir ["packages"] (by decide)
  · intro id filed hfiled
    cases hfiled
  · intro id filed hfiled
    cases hfiled

/-- The deployment after another setup: new parameters and no authorities, beside the keys, packages and
revocations there are. -/
def World.restarted (w : World F G₁ G₂ Gₜ) (fresh : Fresh F) : World F G₁ G₂ Gₜ :=
  { w with
    pp := (setup C fresh.scalars).1.1
    msk := (setup C fresh.scalars).1.2
    registry := AuthorityRegistry.new
    log := w.log ++ AuditLog.line D (setupEvent fresh) }

omit [DecidableEq F] in
/-- A setup of a deployment. -/
theorem Represents.restarted {d : Disk} {w : World F G₁ G₂ Gₜ} (h : Represents C D data d w)
    (fresh : Fresh F) :
    Represents C D data (Fs.exec (cmdSetup C D data fresh) d).2 (w.restarted C D fresh) := by
  have hdata := h.createDirAll [] (by simp)
  rw [Path.under_nil] at hdata
  have hsaved : Represents C D data ((d.createDirAll data).write (File.setup.path data)
      (setupBytes C D (Core.setup C fresh.scalars).1.1 (Core.setup C fresh.scalars).1.2))
      { w with pp := (Core.setup C fresh.scalars).1.1, msk := (Core.setup C fresh.scalars).1.2 } := by
    refine hdata.write ?_ (deployed_setup C fresh.scalars) rfl
    funext f
    cases f <;> rfl
  rw [exec_cmdSetup]
  dsimp only
  rw [setupPath_eq]
  exact (hsaved.registry AuthorityRegistry.new).packagesDir.event _

end SecureABE.Cli
