import SecureABE.Cli.Runs

/-!
# What a command leaves alone

A command writes to few files, and which these are can be said before it runs (`Call.targets`). Every
other file is as it was (`lookup_exec`), whatever the disk holds and whether or not the command succeeds.
Nothing is ever deleted (`has_exec`).
-/

namespace SecureABE.Cli

open Rust SecureABE.Core SecureABE.Policy SecureABE.Revocation SecureABE.Authorities SecureABE.Audit
  SecureABE.Envelope SecureABE.Storage

variable {F G₁ G₂ Gₜ : Type} [Field F] [DecidableEq F] [AddCommGroup G₁] [Module F G₁]
  [AddCommGroup G₂] [Module F G₂] [AddCommGroup Gₜ] [Module F Gₜ]
variable (C : Curve F G₁ G₂ Gₜ) (A : Cipher) (D : Codec) (cwd data : Path)

/-- The files that a command may write to. -/
def Call.targets (call : Call F) : List Path :=
  match call.command with
  | .setup => [setupPath data, authoritiesPath data, auditPath data]
  | .registerAuthority _ _ => [authoritiesPath data]
  | .issue args => [setupPath data, keyFile data args.user, auditPath data]
  | .encrypt _ _ =>
    let id := newId D call.fresh.stamp
    [setupPath data, (packageStore data).sealedPath id, (packageStore data).keyPath id,
      (packageStore data).manifestPath id, auditPath data]
  | .decrypt _ _ out => [cwd.join out, auditPath data]
  | .revokeAttribute _ | .revokeUser _ => [revocationPath data, auditPath data]

variable {C A D cwd data}

omit [DecidableEq F] in
/-- The files that `put` does not write. -/
theorem lookup_afterPut {p : Path} (store : PackageStore) (originalFilename : String)
    (package : EncryptedPackage G₁) (stamp : Stamp) (d : Disk)
    (hsealed : p ≠ store.sealedPath (newId D stamp)) (hkey : p ≠ store.keyPath (newId D stamp))
    (hmanifest : p ≠ store.manifestPath (newId D stamp)) :
    (store.afterPut C D originalFilename package stamp d).files.lookup p = d.files.lookup p := by
  rw [PackageStore.afterPut, Disk.lookup_write_ne hmanifest, Disk.lookup_write_ne hkey,
    Disk.lookup_write_ne hsealed, Disk.files_createDirAll]

/-- **The frame of a command**: a file that is not among its targets is as before. -/
theorem lookup_exec {call : Call F} {p : Path} (hp : p ∉ call.targets D cwd data) (d : Disk) :
    (call.exec C A D cwd data d).2.files.lookup p = d.files.lookup p := by
  obtain ⟨command, fresh⟩ := call
  cases command with
  | setup =>
    simp only [Call.targets, List.mem_cons, List.not_mem_nil, or_false, not_or] at hp
    obtain ⟨hsetup, hauthorities, haudit⟩ := hp
    rw [exec_setup, exec_cmdSetup, Disk.lookup_append_ne haudit, Disk.files_createDirAll,
      Disk.lookup_write_ne hauthorities, Disk.lookup_write_ne hsetup, Disk.files_createDirAll]
  | registerAuthority name controls =>
    have hexec := exec_cmdRegisterAuthority D data name controls d
    change (Call.mk (.registerAuthority name controls) fresh).exec C A D cwd data d = _ at hexec
    rw [hexec]
    cases registryOn D data d with
    | error e => rfl
    | ok reg => exact Disk.lookup_write_ne (fun h => hp (List.mem_singleton.2 h)) d _
  | issue args =>
    simp only [Call.targets, List.mem_cons, List.not_mem_nil, or_false, not_or] at hp
    obtain ⟨hsetup, hkey, haudit⟩ := hp
    rw [exec_issue, exec_cmdIssue]
    cases issueOutcome C D data args fresh d with
    | error e => rfl
    | ok key =>
      rw [Cmd.andThen_ok, afterIssue, Disk.lookup_append_ne haudit, Disk.lookup_write_ne hkey,
        Disk.files_createDirAll, Disk.lookup_write_ne hsetup]
  | encrypt file policy =>
    simp only [Call.targets, List.mem_cons, List.not_mem_nil, or_false, not_or] at hp
    obtain ⟨hsetup, hsealed, hkey, hmanifest, haudit⟩ := hp
    have hexec := exec_cmdEncrypt C A D cwd data file policy fresh d
    change (Call.mk (.encrypt file policy) fresh).exec C A D cwd data d = _ at hexec
    rw [hexec]
    cases encryptOutcome C D data policy fresh d with
    | error e => rfl
    | ok prepared =>
      rw [Cmd.andThen_ok]
      cases sealOutcome C A D cwd file policy fresh prepared
          (d.write (setupPath data) (setupBytes C D prepared.pp prepared.msk)) with
      | error e => exact Disk.lookup_write_ne hsetup d _
      | ok package =>
        rw [Cmd.andThen_ok, afterEncrypt, Disk.lookup_append_ne haudit]
        change ((packageStore data).afterPut C D _ package _ _).files.lookup p = _
        rw [lookup_afterPut _ _ _ _ _ hsealed hkey hmanifest, Disk.files_createDirAll,
          Disk.lookup_write_ne hsetup]
  | decrypt id user out =>
    simp only [Call.targets, List.mem_cons, List.not_mem_nil, or_false, not_or] at hp
    obtain ⟨hout, haudit⟩ := hp
    have hexec := exec_cmdDecrypt C A D cwd data id user out fresh d
    change (Call.mk (.decrypt id user out) fresh).exec C A D cwd data d = _ at hexec
    rw [hexec]
    cases keyOutcome C D data user d with
    | error e => rfl
    | ok key =>
      rw [Cmd.andThen_ok]
      cases storedOn C D data id (d.createDirAll (packagesDir data)) with
      | error e => rfl
      | ok package =>
        rw [Cmd.andThen_ok]
        rcases Envelope.open C A D key.1 key.2 package with (e | msg) | plaintext
        · exact Disk.lookup_append_ne haudit _ _
        · rfl
        · exact (Disk.lookup_append_ne haudit _ _).trans (Disk.lookup_write_ne hout _ _)
  | revokeAttribute attr =>
    simp only [Call.targets, List.mem_cons, List.not_mem_nil, or_false, not_or] at hp
    obtain ⟨hrevocation, haudit⟩ := hp
    have hexec := exec_cmdRevokeAttribute D data attr fresh d
    change (Call.mk (.revokeAttribute attr) fresh).exec C A D cwd data d = _ at hexec
    rw [hexec]
    cases hrl : revocationOn D data d with
    | error e => rfl
    | ok rl =>
      rw [Cmd.andThen_ok, Disk.lookup_append_ne haudit, path_of_revocationOn hrl,
        Disk.lookup_write_ne hrevocation]
  | revokeUser user =>
    simp only [Call.targets, List.mem_cons, List.not_mem_nil, or_false, not_or] at hp
    obtain ⟨hrevocation, haudit⟩ := hp
    have hexec := exec_cmdRevokeUser D data user fresh d
    change (Call.mk (.revokeUser user) fresh).exec C A D cwd data d = _ at hexec
    rw [hexec]
    cases hrl : revocationOn D data d with
    | error e => rfl
    | ok rl =>
      rw [Cmd.andThen_ok, Disk.lookup_append_ne haudit, RevocationList.path_withUser,
        path_of_revocationOn hrl, Disk.lookup_write_ne hrevocation]

/-! ## The files of the deployment -/

variable (D) in
/-- The files of the deployment among the targets. -/
def Call.files (call : Call F) : List File :=
  match call.command with
  | .setup => [.setup, .authorities, .audit]
  | .registerAuthority _ _ => [.authorities]
  | .issue args => [.setup, .key args.user, .audit]
  | .encrypt _ _ =>
    let id := newId D call.fresh.stamp
    [.setup, .sealedDoc id, .wrappedKey id, .manifest id, .audit]
  | .decrypt _ _ _ => [.audit]
  | .revokeAttribute _ | .revokeUser _ => [.revocation, .audit]

omit [Field F] [DecidableEq F] in
/-- Only issuing writes key files. -/
theorem key_mem_files {call : Call F} {user : String} :
    File.key user ∈ call.files D ↔ ∃ args, call.command = .issue args ∧ args.user = user := by
  obtain ⟨command, fresh⟩ := call
  cases command with
  | issue args => simp [Call.files, eq_comm]
  | _ => simp [Call.files]

omit [Field F] [DecidableEq F] in
/-- Only encrypting writes packages, under a new id. -/
theorem of_package_mem_files {call : Call F} {id : String}
    (h : File.sealedDoc id ∈ call.files D ∨ File.wrappedKey id ∈ call.files D) :
    (∃ file policy, call.command = .encrypt file policy) ∧ newId D call.fresh.stamp = id := by
  obtain ⟨command, fresh⟩ := call
  cases command with
  | encrypt file policy =>
    refine ⟨⟨file, policy, rfl⟩, ?_⟩
    simpa [Call.files, eq_comm] using h
  | _ => simp [Call.files] at h

variable (cwd data) in
/-- The names in the command do not lead it to a file by another way: the name of a user does not lead out
of the directory of the keys, and the document is not written over the file. -/
def Call.Avoids (call : Call F) (f : File) : Prop :=
  match call.command with
  | .issue args => '/' ∉ args.user.toList
  | .decrypt _ _ out => f.path data ≠ cwd.join out
  | _ => True

omit [Field F] [DecidableEq F] in
theorem Call.Regular.avoids {call : Call F} (h : call.Regular cwd data) (f : File) :
    call.Avoids cwd data f := by
  obtain ⟨command, fresh⟩ := call
  cases command with
  | issue args => exact h
  | decrypt id user out => exact fun hout => h (hout ▸ f.own data)
  | _ => trivial

omit [Field F] [DecidableEq F] in
/-- The targets at the places of the deployment. -/
theorem path_mem_targets (hX : D.HexReadsBack) {call : Call F} {f : File}
    (hcall : call.Avoids cwd data f) : f.path data ∈ call.targets D cwd data ↔ f ∈ call.files D := by
  obtain ⟨command, fresh⟩ := call
  have hid := isName_newId hX fresh.stamp
  cases command with
  | issue args =>
    have huser : '/' ∉ args.user.toList := hcall
    simp only [Call.targets, Call.files, setupPath_eq, keyFile_eq huser, auditPath_eq, List.mem_cons,
      List.not_mem_nil, File.path_inj]
  | decrypt id user out =>
    have hout : f.path data ≠ cwd.join out := hcall
    simp only [Call.targets, Call.files, auditPath_eq, List.mem_cons, List.not_mem_nil, File.path_inj,
      hout, false_or]
  | _ =>
    simp only [Call.targets, Call.files, setupPath_eq, authoritiesPath_eq, revocationPath_eq,
      auditPath_eq, sealedPath_eq hid, wrappedKeyPath_eq hid, manifestPath_eq hid, List.mem_cons,
      List.not_mem_nil, File.path_inj]

/-- **The frame of a command**, for the files of the deployment. -/
theorem view_exec (hX : D.HexReadsBack) {call : Call F} {f : File} (hcall : call.Avoids cwd data f)
    (hf : f ∉ call.files D) (d : Disk) :
    view data (call.exec C A D cwd data d).2 f = view data d f :=
  lookup_exec (fun h => hf ((path_mem_targets hX hcall).1 h)) d

/-- What is there stays there. -/
theorem has_exec {d : Disk} {p : Path} (h : d.has p = true) (call : Call F) :
    (call.exec C A D cwd data d).2.has p = true :=
  Fs.has_exec _ h

end SecureABE.Cli
