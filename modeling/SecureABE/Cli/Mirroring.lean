import SecureABE.Cli.Access
import SecureABE.Cli.Frames
import SecureABE.Cli.Monitor

/-!
# A deployment and its monitor

`Mirrors` is the simulation between the disk and the reference monitor: the disk represents a deployment
with a history, and the monitor has the registry, the epochs, the grants and the deposits of that history.
The lemmas before it say what a command does not touch, and what the files determine of the deployment.
-/

namespace SecureABE.Cli

open Rust SecureABE.Core SecureABE.Policy SecureABE.Revocation SecureABE.Authorities SecureABE.Audit
  SecureABE.Envelope SecureABE.Storage

variable {F G₁ G₂ Gₜ : Type} [Field F] [DecidableEq F] [AddCommGroup G₁] [Module F G₁]
  [AddCommGroup G₂] [Module F G₂] [AddCommGroup Gₜ] [Module F Gₜ]
variable {C : Curve F G₁ G₂ Gₜ} {A : Cipher} {D : Codec} {cwd data : Path}

/-! ## Directories of packages -/

/-- A command takes a package id if it stores a package under it. -/
def Call.Takes (D : Codec) (call : Call F) (id : String) : Prop :=
  (∃ file policy, call.command = .encrypt file policy) ∧ newId D call.fresh.stamp = id

theorem path_ne_packageDir (f : File) (id : String) : data.under ["packages", id] ≠ f.path data := by
  intro h
  have hplace := Path.under_injective h
  cases f <;> simp [File.place] at hplace

theorem has_packageDir_write (f : File) (id : String) (d : Disk) (b : Bytes) :
    (d.write (f.path data) b).has (data.under ["packages", id]) = d.has (data.under ["packages", id]) :=
  Disk.has_write_of_ne (path_ne_packageDir f id) d b

theorem has_packageDir_append (f : File) (id : String) (d : Disk) (b : Bytes) :
    (d.append (f.path data) b).has (data.under ["packages", id]) = d.has (data.under ["packages", id]) :=
  has_packageDir_write f id d _

theorem has_packageDir_createDirAll {cs : List String} {id : String} (hcs : ¬ ["packages", id] <+: cs)
    (d : Disk) : (d.createDirAll (data.under cs)).has (data.under ["packages", id]) =
      d.has (data.under ["packages", id]) := by
  rw [Bool.eq_iff_iff, Disk.has_createDirAll_iff, Path.under_mem_ancestors]
  exact or_iff_left hcs

/-- **The directory of a package** comes with the package. -/
theorem has_packageDir_exec (hX : D.HexReadsBack) {call : Call F} (hcall : call.Regular cwd data)
    {id : String} (hid : ¬ call.Takes D id) (d : Disk) :
    (call.exec C A D cwd data d).2.has (data.under ["packages", id]) =
      d.has (data.under ["packages", id]) := by
  obtain ⟨command, fresh⟩ := call
  have hpackages : ¬ ["packages", id] <+: ["packages"] := by simp
  cases command with
  | setup => cases hcall
  | registerAuthority name controls =>
    have hexec := exec_cmdRegisterAuthority D data name controls d
    change (Call.mk (.registerAuthority name controls) fresh).exec C A D cwd data d = _ at hexec
    rw [hexec]
    cases registryOn D data d with
    | error e => rfl
    | ok reg => exact has_packageDir_write .authorities id d _
  | issue args =>
    rw [exec_issue, exec_cmdIssue]
    cases issueOutcome C D data args fresh d with
    | error e => rfl
    | ok key =>
      rw [Cmd.andThen_ok, afterIssue, auditPath_eq, has_packageDir_append, keyFile_eq hcall,
        has_packageDir_write, keysDir_eq, has_packageDir_createDirAll (by simp), setupPath_eq,
        has_packageDir_write]
  | encrypt file policy =>
    have hnew : newId D fresh.stamp ≠ id := fun h => hid ⟨⟨file, policy, rfl⟩, h⟩
    have hname := isName_newId hX fresh.stamp
    have hexec := exec_cmdEncrypt C A D cwd data file policy fresh d
    change (Call.mk (.encrypt file policy) fresh).exec C A D cwd data d = _ at hexec
    rw [hexec]
    cases encryptOutcome C D data policy fresh d with
    | error e => rfl
    | ok prepared =>
      rw [Cmd.andThen_ok]
      cases sealOutcome C A D cwd file policy fresh prepared
          (d.write (setupPath data) (setupBytes C D prepared.pp prepared.msk)) with
      | error e => exact has_packageDir_write .setup id d _
      | ok package =>
        rw [Cmd.andThen_ok, afterEncrypt, auditPath_eq, has_packageDir_append]
        change ((packageStore data).afterPut C D _ package _ _).has _ = _
        rw [PackageStore.afterPut, manifestPath_eq hname, wrappedKeyPath_eq hname, sealedPath_eq hname,
          has_packageDir_write, has_packageDir_write, has_packageDir_write, packageDir_eq hname,
          has_packageDir_createDirAll (by simpa using Ne.symm hnew), packagesDir_eq,
          has_packageDir_createDirAll hpackages, setupPath_eq, has_packageDir_write]
  | decrypt id' user out =>
    have hout : data.under ["packages", id] ≠ cwd.join out := by
      rintro h
      exact hcall ⟨"packages", by simp [ownNames], [id], h.symm⟩
    have hexec := exec_cmdDecrypt C A D cwd data id' user out fresh d
    change (Call.mk (.decrypt id' user out) fresh).exec C A D cwd data d = _ at hexec
    rw [hexec, packagesDir_eq]
    cases keyOutcome C D data user d with
    | error e => rfl
    | ok key =>
      rw [Cmd.andThen_ok]
      cases storedOn C D data id' (d.createDirAll (data.under ["packages"])) with
      | error e => exact has_packageDir_createDirAll hpackages d
      | ok package =>
        rw [Cmd.andThen_ok]
        rcases Envelope.open C A D key.1 key.2 package with (e | msg) | plaintext
        · rw [decided, auditPath_eq, has_packageDir_append, has_packageDir_createDirAll hpackages]
        · exact has_packageDir_createDirAll hpackages d
        · rw [decided, auditPath_eq, has_packageDir_append, Disk.has_write_of_ne hout,
            has_packageDir_createDirAll hpackages]
  | revokeAttribute attr =>
    have hexec := exec_cmdRevokeAttribute D data attr fresh d
    change (Call.mk (.revokeAttribute attr) fresh).exec C A D cwd data d = _ at hexec
    rw [hexec]
    cases hrl : revocationOn D data d with
    | error e => rfl
    | ok rl =>
      rw [Cmd.andThen_ok, auditPath_eq, has_packageDir_append, path_of_revocationOn hrl,
        revocationPath_eq, has_packageDir_write]
  | revokeUser user =>
    have hexec := exec_cmdRevokeUser D data user fresh d
    change (Call.mk (.revokeUser user) fresh).exec C A D cwd data d = _ at hexec
    rw [hexec]
    cases hrl : revocationOn D data d with
    | error e => rfl
    | ok rl =>
      rw [Cmd.andThen_ok, auditPath_eq, has_packageDir_append, RevocationList.path_withUser,
        path_of_revocationOn hrl, revocationPath_eq, has_packageDir_write]

/-! ## What a view determines -/

section Determined

variable {d d' : Disk} {w w' : World F G₁ G₂ Gₜ} (h : Represents C D data d w)
  (h' : Represents C D data d' w')
include h h'

omit [DecidableEq F]

theorem contents_eq_of_view {f : File} (hview : view data d' f = view data d f) :
    w'.contents C D f = w.contents C D f := by
  rw [← h.view, ← h'.view, hview]

theorem registry_eq_of_view (hD : D.ReadsShallow)
    (hview : view data d' .authorities = view data d .authorities) : w'.registry = w.registry := by
  have hbytes := contents_eq_of_view h h' hview
  have htext : D.toStringPretty w'.registry.toJson = D.toStringPretty w.registry.toJson :=
    utf8_injective (Option.some.inj hbytes)
  have hread : ∀ reg : AuthorityRegistry, D.fromStr (D.toStringPretty reg.toJson) = .ok reg.toJson :=
    fun reg => hD _ (reg.depth_toJson.trans_lt (by decide))
  have hjson : w'.registry.toJson = w.registry.toJson :=
    Except.ok.inj ((hread _).symm.trans ((congrArg D.fromStr htext).trans (hread _)))
  have hregistry := w'.registry.fromJson_toJson
  rw [hjson, AuthorityRegistry.fromJson_toJson] at hregistry
  exact (Except.ok.inj hregistry).symm

theorem revocation_eq_of_view (hD : D.ReadsShallow)
    (hview : view data d' .revocation = view data d .revocation) : w'.revocation = w.revocation := by
  have hbytes : w'.revocation.map (RevocationList.encode D) = w.revocation.map (RevocationList.encode D) :=
    contents_eq_of_view h h' hview
  refine Option.map_injective ?_ hbytes
  intro st st' heq
  have htext : D.toStringPretty st.toJson = D.toStringPretty st'.toJson := utf8_injective heq
  have hread : ∀ st : RevocationState, D.fromStr (D.toStringPretty st.toJson) = .ok st.toJson :=
    fun st => hD _ (st.depth_toJson.trans_lt (by decide))
  have hjson : st.toJson = st'.toJson :=
    Except.ok.inj ((hread _).symm.trans ((congrArg D.fromStr htext).trans (hread _)))
  have hstate := st.fromJson_toJson
  rw [hjson, RevocationState.fromJson_toJson] at hstate
  exact (Except.ok.inj hstate).symm

theorem isSome_keys_of_view {user : String}
    (hview : view data d' (.key user) = view data d (.key user)) :
    (w'.keys user).isSome = (w.keys user).isSome := by
  have hbytes : (w'.keys user).map (userKeyBytes C D) = (w.keys user).map (userKeyBytes C D) :=
    contents_eq_of_view h h' hview
  simpa using congrArg Option.isSome hbytes

theorem isSome_packages_of_view {id : String}
    (hview : view data d' (.manifest id) = view data d (.manifest id)) :
    (w'.packages id).isSome = (w.packages id).isSome := by
  have hbytes : (w'.packages id).map Filed.manifest = (w.packages id).map Filed.manifest :=
    contents_eq_of_view h h' hview
  simpa using congrArg Option.isSome hbytes

end Determined

/-! ## The simulation -/

/-- The attributes that a history grants to a user, with their epochs. -/
def grantsOf (past : List Happening) (user : String) : List (String × UInt64) :=
  past.flatMap fun
    | .issued user' attrs revocation =>
      if user' = user then attrs.map fun a => (a, revocation.currentEpoch a) else []
    | .stored .. => []

theorem grantsOf_append (past past' : List Happening) (user : String) :
    grantsOf (past ++ past') user = grantsOf past user ++ grantsOf past' user :=
  List.flatMap_append

/-- The attributes that a user is entitled to are the grants at the epochs. -/
theorem mem_entitled_iff {past : List Happening} {user : String} {revocation : RevocationList}
    {a : String} : a ∈ entitled past user revocation ↔
      a ∈ currentOf (grantsOf past user) revocation.currentEpoch := by
  rw [mem_currentOf, entitled, grantsOf, List.mem_flatMap, List.mem_flatMap]
  refine exists_congr fun e => and_congr_right fun _ => ?_
  cases e with
  | stored id policy plaintext then_ => simp
  | issued user' attrs then_ =>
    by_cases hu : user' = user
    · simp only [if_pos hu, List.mem_filter, decide_eq_true_eq, List.mem_map, Prod.mk.injEq]
      constructor
      · rintro ⟨ha, hepoch⟩
        exact ⟨a, ha, rfl, hepoch⟩
      · rintro ⟨b, hb, rfl, hepoch⟩
        exact ⟨hb, hepoch⟩
    · simp [hu]

variable (C A D data) in
/-- The disk and the monitor after the same commands. -/
structure Mirrors (d : Disk) (w : World F G₁ G₂ Gₜ) (past : List Happening) (m : Monitor) : Prop where
  represents : Represents C D data d w
  tells : w.Tells C A D past
  controls : ∀ name, m.controls name = (w.registry.authorities.lookup name).map Authority.controls
  epoch : m.epoch = (w.revocationList data).currentEpoch
  revoked : m.revoked = (w.revocationList data).isUserRevoked
  grants : ∀ user, m.grants user = if (w.keys user).isSome then some (grantsOf past user) else none
  deposits : ∀ id, (m.deposits id = none ∧ w.packages id = none) ∨
    ∃ deposit policy revocation, m.deposits id = some deposit ∧
      lastStored past id = some (.stored id policy deposit.plaintext revocation) ∧
      parse policy = .ok deposit.policy ∧ revocation.currentEpoch = deposit.epoch ∧
      deposit.policy.gateDepth ≤ 41
  stray : ∀ id, w.packages id = none → d.has (data.under ["packages", id]) = false
  documents : ∀ p, ¬ Own data p → d.files.lookup p = m.documents p

/-- A command that works on its own files, the others being those of the users: it encrypts a file of
theirs, under a policy that is not nested too deeply for its package to be read back, and the user and
the package of a decryption are named without slashes. -/
def Call.Proper (cwd data : Path) (call : Call F) : Prop :=
  call.Regular cwd data ∧ match call.command with
    | .encrypt file policy => ¬ Own data (cwd.join file) ∧
      ∀ tree, parse policy = .ok tree → tree.gateDepth ≤ 41
    | .decrypt id user _ => Path.IsName id ∧ '/' ∉ user.toList
    | _ => True

omit [Field F] [DecidableEq F] in
/-- The targets outside the deployment are the outputs of decryption. -/
theorem Call.Regular.of_mem_targets (hX : D.HexReadsBack) {call : Call F} (hcall : call.Regular cwd data)
    {p : Path} (hp : p ∈ call.targets D cwd data) :
    Own data p ∨ ∃ id user out, call.command = .decrypt id user out ∧ p = cwd.join out := by
  obtain ⟨command, fresh⟩ := call
  have hname := isName_newId hX fresh.stamp
  cases command with
  | setup => cases hcall
  | decrypt id user out =>
    simp only [Call.targets, List.mem_cons, List.not_mem_nil, or_false] at hp
    rcases hp with rfl | rfl
    · exact Or.inr ⟨id, user, out, rfl, rfl⟩
    · exact Or.inl (auditPath_eq data ▸ File.audit.own data)
  | registerAuthority name controls =>
    simp only [Call.targets, List.mem_singleton] at hp
    exact Or.inl (hp ▸ authoritiesPath_eq data ▸ File.authorities.own data)
  | issue args =>
    simp only [Call.targets, List.mem_cons, List.not_mem_nil, or_false] at hp
    rcases hp with rfl | rfl | rfl
    · exact Or.inl (setupPath_eq data ▸ File.setup.own data)
    · exact Or.inl (keyFile_eq hcall ▸ (File.key args.user).own data)
    · exact Or.inl (auditPath_eq data ▸ File.audit.own data)
  | encrypt file policy =>
    simp only [Call.targets, List.mem_cons, List.not_mem_nil, or_false] at hp
    rcases hp with rfl | rfl | rfl | rfl | rfl
    · exact Or.inl (setupPath_eq data ▸ File.setup.own data)
    · exact Or.inl (sealedPath_eq hname ▸ (File.sealedDoc _).own data)
    · exact Or.inl (wrappedKeyPath_eq hname ▸ (File.wrappedKey _).own data)
    · exact Or.inl (manifestPath_eq hname ▸ (File.manifest _).own data)
    · exact Or.inl (auditPath_eq data ▸ File.audit.own data)
  | revokeAttribute attr =>
    simp only [Call.targets, List.mem_cons, List.not_mem_nil, or_false] at hp
    rcases hp with rfl | rfl
    · exact Or.inl (revocationPath_eq data ▸ File.revocation.own data)
    · exact Or.inl (auditPath_eq data ▸ File.audit.own data)
  | revokeUser user =>
    simp only [Call.targets, List.mem_cons, List.not_mem_nil, or_false] at hp
    rcases hp with rfl | rfl
    · exact Or.inl (revocationPath_eq data ▸ File.revocation.own data)
    · exact Or.inl (auditPath_eq data ▸ File.audit.own data)

theorem ne_path_of_not_own {p : Path} (hp : ¬ Own data p) (f : File) : p ≠ f.path data := by
  rintro rfl
  exact hp (f.own data)

/-- The users' files are left alone, but for the output of a decryption. -/
theorem lookup_exec_of_not_own (hX : D.HexReadsBack) {call : Call F} (hcall : call.Regular cwd data)
    (hdecrypt : ∀ id user out, call.command ≠ .decrypt id user out) {p : Path} (hp : ¬ Own data p)
    (d : Disk) : (call.exec C A D cwd data d).2.files.lookup p = d.files.lookup p := by
  apply lookup_exec
  intro hmem
  rcases hcall.of_mem_targets hX hmem with hown | ⟨id, user, out, hcommand, -⟩
  · exact hp hown
  · exact hdecrypt id user out hcommand

theorem eq_none_iff {α β : Type} {x : Option α} {y : Option β} (h : x.isSome = y.isSome) :
    x = none ↔ y = none := by
  rw [← Option.not_isSome_iff_eq_none, ← Option.not_isSome_iff_eq_none, h]

namespace Mirrors

variable {d : Disk} {w : World F G₁ G₂ Gₜ} {past : List Happening} {m : Monitor}
  (h : Mirrors C A D data d w past m)
include h

omit [DecidableEq F]

theorem permit_eq (authority : String) (claim : Claim) :
    m.permit authority claim = w.registry.checkPermission authority claim := by
  unfold Monitor.permit AuthorityRegistry.checkPermission
  rw [h.controls]
  cases w.registry.authorities.lookup authority with
  | none => rfl
  | some a =>
    have hcontrols : (a.controls = [] ∨ claim.keyPrefix ∈ a.controls) ↔
        a.controls.isEmpty = true ∨ (a.controls.any (· == claim.keyPrefix)) = true := by
      simp
    simp only [Option.map_some, Outcome.okOr_some, ok_bind, if_congr hcontrols rfl rfl]
    by_cases hempty : a.controls.isEmpty = true
    · rw [if_pos (Or.inl hempty), if_pos hempty]
    · rw [if_neg hempty, if_congr (or_iff_right hempty) rfl rfl]

/-- The loop over the claims stops where the monitor does. -/
theorem grantClaims_eq (revocation : RevocationList) (authority : String) (claims : List Claim)
    (st : Granting F G₁ G₂ Gₜ) : grantClaims w.registry revocation authority claims st = (do
      Outcome.mapErr AuthorityError.toText (m.permitAll authority claims)
      .ok ((resolved claims).foldl (Granting.add revocation) st)) := by
  induction claims generalizing st with
  | nil => rfl
  | cons claim claims ih =>
    rw [grantClaims, Monitor.permitAll, h.permit_eq]
    rcases w.registry.checkPermission authority claim with (e | msg) | u
    · rfl
    · rfl
    · rw [Outcome.mapErr_ok, ok_bind, ok_bind, ih]
      simp only [resolved, List.flatMap_cons, List.foldl_append]

/-- Nothing is granted to a user without a key. -/
theorem grantsOf_eq_nil {user : String} (hkey : w.keys user = none) : grantsOf past user = [] := by
  have htags : grantedTags past user =
      (grantsOf past user).map fun g => g.1 ++ "@epoch" ++ toString g.2.toNat := by
    clear h hkey
    induction past with
    | nil => rfl
    | cons e past ih =>
      rw [← List.singleton_append, grantedTags_append, grantsOf_append, List.map_append, ih]
      congr 1
      cases e with
      | stored id policy plaintext then_ => rfl
      | issued user' attrs then_ =>
        rw [grantedTags_issued, grantsOf, List.flatMap_singleton]
        dsimp only
        split_ifs
        · rw [List.map_map]
          rfl
        · rfl
  rcases h.tells.keys user with ⟨-, hnil⟩ | ⟨usk, attrs, r, hsome, -⟩
  · rw [hnil] at htags
    exact List.map_eq_nil_iff.1 htags.symm
  · rw [hkey] at hsome
    cases hsome

/-- The deployment has the same parts, beside the files of the users. -/
theorem of_frame {d' : Disk} {w' : World F G₁ G₂ Gₜ} (h' : Represents C D data d' w')
    (ht' : w'.Tells C A D past) (hregistry : w'.registry = w.registry)
    (hrevocation : w'.revocation = w.revocation)
    (hkeys : ∀ user, (w'.keys user).isSome = (w.keys user).isSome)
    (hpackages : ∀ id, (w'.packages id).isSome = (w.packages id).isSome)
    (hstray : ∀ id, d'.has (data.under ["packages", id]) = d.has (data.under ["packages", id]))
    {documents : Path → Option Bytes}
    (hdocuments : ∀ p, ¬ Own data p → d'.files.lookup p = documents p) :
    Mirrors C A D data d' w' past { m with documents } where
  represents := h'
  tells := ht'
  controls := by
    rw [hregistry]
    exact h.controls
  epoch := by
    rw [World.revocationList, hrevocation]
    exact h.epoch
  revoked := by
    rw [World.revocationList, hrevocation]
    exact h.revoked
  grants := fun user => by rw [hkeys, h.grants]
  deposits := fun id => (h.deposits id).imp_left (And.imp_right ((eq_none_iff (hpackages id)).2))
  stray := fun id hid => (hstray id).trans (h.stray id ((eq_none_iff (hpackages id)).1 hid))
  documents := hdocuments

end Mirrors

end SecureABE.Cli
