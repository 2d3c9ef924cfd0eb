import SecureABE.Cli.Faults
import SecureABE.Cli.Mirroring
import SecureABE.Foundations.Agreement

/-!
# What a disturbed command leaves

A command that is cut off, or whose writes fail, has saved parameters at most (`Unfinished`), or it has
had its effect and only the log and the manifest are not what they should be (`Effective`). The one access
in between is the write of the registry, of the key, of the wrapped key of a package, of the decrypted
document or of the revocation list. `wary_run` is that every command is one or the other, wherever it is
disturbed.

What is left over of a package that was never finished is its directory and its sealed document. No
command looks at these (`sees_run`), unless it is asked to decrypt that package.
-/

namespace SecureABE.Cli

open Rust SecureABE.Core SecureABE.Policy SecureABE.Revocation SecureABE.Authorities SecureABE.Audit
  SecureABE.Envelope SecureABE.Storage

variable {F G₁ G₂ Gₜ : Type} [Field F] [DecidableEq F] [AddCommGroup G₁] [Module F G₁]
  [AddCommGroup G₂] [Module F G₂] [AddCommGroup Gₜ] [Module F Gₜ]
variable {C : Curve F G₁ G₂ Gₜ} {A : Cipher} {D : Codec} {cwd data : Path}

/-! ## What commands look at -/

/-- The log and the manifests are not read by the commands, nor is the document of a lost package. -/
structure Visible (data : Path) (lost : String → Prop) (p : Path) : Prop where
  audit : p ≠ File.audit.path data
  manifest : ∀ id, p ≠ (File.manifest id).path data
  sealedDoc : ∀ id, lost id → p ≠ (File.sealedDoc id).path data

/-- The paths of which commands ask whether they are there. -/
inductive Probed (data : Path) (lost : String → Prop) : Path → Prop
  | authorities : Probed data lost (File.authorities.path data)
  | revocation : Probed data lost (File.revocation.path data)
  | packageDir {id : String} (h : ¬ lost id) : Probed data lost (data.under ["packages", id])

/-- The disks are the same for every command, beside what lost packages have left. -/
abbrev Resembles (data : Path) (lost : String → Prop) (d d' : Disk) : Prop :=
  d.Agree (Visible data lost) (Probed data lost) d'

section Visible

variable {lost lost' : String → Prop} {d d' : Disk}

theorem visible_of_not_own {p : Path} (hp : ¬ Own data p) : Visible data lost p where
  audit := by
    rintro rfl
    exact hp (File.audit.own data)
  manifest := by
    rintro id rfl
    exact hp ((File.manifest id).own data)
  sealedDoc := by
    rintro id - rfl
    exact hp ((File.sealedDoc id).own data)

theorem visible_path {f : File} (haudit : f ≠ .audit) (hmanifest : ∀ id, f ≠ .manifest id)
    (hsealed : ∀ id, lost id → f ≠ .sealedDoc id) : Visible data lost (f.path data) where
  audit := fun h => haudit (File.path_injective h)
  manifest := fun id h => hmanifest id (File.path_injective h)
  sealedDoc := fun id hid h => hsealed id hid (File.path_injective h)

theorem Probed.not_path {f : File} (hauthorities : f ≠ .authorities) (hrevocation : f ≠ .revocation) :
    ¬ Probed data lost (f.path data) := by
  generalize hp : f.path data = p
  rintro (- | - | @⟨id, -⟩)
  · exact hauthorities (File.path_injective hp)
  · exact hrevocation (File.path_injective hp)
  · have hplace := Path.under_injective hp
    cases f <;> simp [File.place] at hplace

/-- A directory that is created on the way is not one of those that commands ask for. -/
theorem Probed.notMem_ancestors {cs : List String} (hauthorities : ¬ ["authorities.json"] <+: cs)
    (hrevocation : ¬ ["revocation.json"] <+: cs) (hpackage : ∀ id, ¬ lost id → ¬ ["packages", id] <+: cs)
    {p : Path} (hp : Probed data lost p) : p ∉ (data.under cs).ancestors := by
  intro hmem
  cases hp with
  | authorities => exact hauthorities (Path.under_mem_ancestors.1 hmem)
  | revocation => exact hrevocation (Path.under_mem_ancestors.1 hmem)
  | packageDir hid => exact hpackage _ hid (Path.under_mem_ancestors.1 hmem)

theorem Probed.notMem_packagesDir {p : Path} (hp : Probed data lost p) :
    p ∉ (packagesDir data).ancestors := by
  rw [packagesDir_eq]
  exact hp.notMem_ancestors (by decide) (by decide) (by simp)

theorem Probed.notMem_keysDir {p : Path} (hp : Probed data lost p) : p ∉ (keysDir data).ancestors := by
  rw [keysDir_eq]
  exact hp.notMem_ancestors (by decide) (by decide) (by simp)

theorem Probed.notMem_packageDir {id : String} (hid : Path.IsName id) (hlost : lost id) {p : Path}
    (hp : Probed data lost p) : p ∉ ((packageStore data).packageDir id).ancestors := by
  rw [packageDir_eq hid]
  refine hp.notMem_ancestors (by simp) (by simp) fun id' hid' hprefix => hid' ?_
  obtain rfl : id' = id := by simpa using hprefix
  exact hlost

/-- More may be lost. -/
theorem resembles_mono (h : Resembles data lost d d') (hlost : ∀ id, lost id → lost' id) :
    Resembles data lost' d d' := by
  refine h.mono (fun p hp => ⟨hp.audit, hp.manifest, fun id hid => hp.sealedDoc id (hlost id hid)⟩) ?_
  rintro p (- | - | @⟨id, hid⟩)
  · exact .authorities
  · exact .revocation
  · exact .packageDir fun h => hid (hlost id h)

theorem resembles_log (d : Disk) (b : Bytes) :
    Resembles data lost (d.append (auditPath data) b) d := by
  rw [auditPath_eq]
  exact Disk.agree_append (fun h => h.audit rfl) (Probed.not_path (by simp) (by simp)) d b

theorem resembles_manifest {id : String} (hid : Path.IsName id) (d : Disk) (b : Bytes) :
    Resembles data lost (d.write ((packageStore data).manifestPath id) b) d := by
  rw [manifestPath_eq hid]
  exact Disk.agree_write (fun h => h.manifest id rfl) (Probed.not_path (by simp) (by simp)) d b

theorem resembles_sealedDoc {id : String} (hid : Path.IsName id) (hlost : lost id) (d : Disk) (b : Bytes) :
    Resembles data lost (d.write ((packageStore data).sealedPath id) b) d := by
  rw [sealedPath_eq hid]
  exact Disk.agree_write (fun h => h.sealedDoc id hlost rfl) (Probed.not_path (by simp) (by simp)) d b

end Visible

/-! ## What each command sees -/

section Sees

variable {lost : String → Prop}

/-- A part of a command that sees nothing of lost packages. -/
abbrev Seeing (data : Path) (lost : String → Prop) {ε α : Type} (x : FileCmd ε α) : Prop :=
  Cmd.Only (FileOp.Sees (Visible data lost) (Probed data lost)) x fun _ => True

theorem sees_single {ε : Type} {x : FileCmd ε Unit} {op : FileOp} (h : Fs.Single x op) (hop : ¬ op.IsRead) :
    Seeing data lost x := by
  apply h.only
  cases op with
  | read p | exist p | readDir p => exact absurd trivial hop
  | _ => trivial

omit [DecidableEq F] in
theorem sees_loadSetup (C : Curve F G₁ G₂ Gₜ) (D : Codec) : Seeing data lost (loadSetup C D data) := by
  have hvisible : Visible data lost (setupPath data) := by
    rw [setupPath_eq]
    exact visible_path (by simp) (by simp) (by simp)
  exact (Fs.only_readToString hvisible).mapErr.bind fun _ _ => Cmd.only_outcome _

theorem sees_loadRegistry (D : Codec) : Seeing data lost (loadRegistry D data) := by
  apply only_loadRegistry
  · rw [authoritiesPath_eq]
    exact Probed.authorities
  · rw [authoritiesPath_eq]
    exact visible_path (by simp) (by simp) (by simp)

theorem sees_loadRevocation (D : Codec) :
    Cmd.Only (FileOp.Sees (Visible data lost) (Probed data lost)) (loadRevocation D data)
      fun rl => rl.path = revocationPath data := by
  apply only_loadRevocation
  · rw [revocationPath_eq]
    exact Probed.revocation
  · rw [revocationPath_eq]
    exact visible_path (by simp) (by simp) (by simp)

omit [DecidableEq F] in
theorem sees_loadUserKey (C : Curve F G₁ G₂ Gₜ) (D : Codec) {user : String} (huser : '/' ∉ user.toList) :
    Seeing data lost (loadUserKey C D data user) := by
  have hvisible : Visible data lost (keyFile data user) := by
    rw [keyFile_eq huser]
    exact visible_path (by simp) (by simp) (by simp)
  exact (Fs.only_readToString hvisible).mapErr.bind fun _ _ => Cmd.only_outcome _

theorem sees_recordEvent (D : Codec) (event : AuditEvent) : Seeing data lost (recordEvent D data event) := by
  apply Cmd.Only.mapErr
  apply (sees_single (Fs.single_openAppend _).mapErr not_false).bind
  intro _ _
  apply (sees_single (Fs.single_append _ _).mapErr not_false).bind
  intro _ _
  exact sees_single (Fs.single_append _ _).mapErr not_false

theorem sees_open : Seeing data lost (PackageStore.open (packagesDir data)) :=
  (sees_single (Fs.single_createDirAll _).mapErr not_false).bind fun _ _ => Cmd.only_pure trivial

omit [DecidableEq F] in
theorem sees_get (C : Curve F G₁ G₂ Gₜ) (D : Codec) {id : String} (hid : Path.IsName id) (hlost : ¬ lost id) :
    Seeing data lost ((packageStore data).get C D id) := by
  have hsealed : Visible data lost ((packageStore data).sealedPath id) := by
    rw [sealedPath_eq hid]
    refine visible_path (by simp) (by simp) fun id' hid' heq => hlost ?_
    obtain rfl := File.sealedDoc.inj heq
    exact hid'
  have hkey : Visible data lost ((packageStore data).keyPath id) := by
    rw [wrappedKeyPath_eq hid]
    exact visible_path (by simp) (by simp) (by simp)
  refine (Fs.only_exist ?_).bind fun _ _ => (Cmd.only_outcome _).ite ?_
  · rw [packageDir_eq hid]
    exact Probed.packageDir hlost
  apply (Fs.only_readToString hsealed).mapErr.bind
  intro _ _
  apply (Cmd.only_outcome _).bind
  intro _ _
  apply (Fs.only_readToString hkey).mapErr.bind
  intro _ _
  exact (Cmd.only_outcome _).bind fun _ _ => Cmd.only_pure trivial

theorem sees_cmdIssue (C : Curve F G₁ G₂ Gₜ) (D : Codec) {args : IssueArgs}
    (huser : '/' ∉ args.user.toList) (fresh : Fresh F) :
    Seeing data lost (cmdIssue C D data args fresh) := by
  have hprepare : Seeing data lost (prepareIssue C D data args fresh) := by
    apply (sees_loadSetup C D).bind
    rintro ⟨pp, msk⟩ -
    apply (sees_loadRegistry D).bind
    intro _ _
    apply (sees_loadRevocation D).bind
    intro _ _
    have hrevocation : Visible data lost (revocationPath data) := by
      rw [revocationPath_eq]
      exact visible_path (by simp) (by simp) (by simp)
    apply (Fs.only_readToString hrevocation).attempt.bind
    intro _ _
    refine (sees_loadRevocation D).bind fun _ _ => (Cmd.only_outcome _).ite ?_
    refine (Cmd.only_outcome _).bind fun _ _ => (Cmd.only_outcome _).bind fun _ _ => ?_
    exact (sees_loadUserKey C D huser).attempt.bind fun _ _ => Cmd.only_outcome _
  apply hprepare.bind
  intro key _
  apply (sees_single (Fs.single_write _ _).mapErr not_false).bind
  intro _ _
  refine Cmd.Only.bind (V := fun _ => True) ?_ fun _ _ => sees_recordEvent D _
  apply (sees_single (Fs.single_createDirAll _).mapErr not_false).bind
  intro _ _
  exact sees_single (Fs.single_write _ _).mapErr not_false

omit [DecidableEq F] in
theorem sees_cmdEncrypt (C : Curve F G₁ G₂ Gₜ) (A : Cipher) (D : Codec) {file : String}
    (hfile : ¬ Own data (cwd.join file)) (policy : String) (fresh : Fresh F) :
    Seeing data lost (cmdEncrypt C A D cwd data file policy fresh) := by
  have hprepare : Seeing data lost (prepareEncrypt C D data policy fresh) := by
    apply (sees_loadSetup C D).bind
    rintro ⟨pp, msk⟩ -
    apply (sees_loadRevocation D).bind
    intro _ _
    exact (Cmd.only_outcome _).bind fun _ _ => Cmd.only_pure trivial
  apply hprepare.bind
  intro prepared _
  apply (sees_single (Fs.single_write _ _).mapErr not_false).bind
  intro _ _
  refine (Fs.only_read (visible_of_not_own hfile)).mapErr.bind fun plaintext _ => ?_
  apply (Cmd.only_outcome _).bind
  rintro ⟨package, rng⟩ -
  apply sees_open.mapErr.bind
  intro store _
  refine Cmd.Only.bind (V := fun _ => True) (Cmd.Only.mapErr ?_) fun _ _ => sees_recordEvent D _
  apply (sees_single (Fs.single_createDirAll _).mapErr not_false).bind
  intro _ _
  apply (sees_single (Fs.single_write _ _).mapErr not_false).bind
  intro _ _
  apply (sees_single (Fs.single_write _ _).mapErr not_false).bind
  intro _ _
  exact (sees_single (Fs.single_write _ _).mapErr not_false).bind fun _ _ => Cmd.only_pure trivial

theorem sees_cmdDecrypt (C : Curve F G₁ G₂ Gₜ) (A : Cipher) (D : Codec) {id user : String}
    (hid : Path.IsName id) (hlost : ¬ lost id) (huser : '/' ∉ user.toList) (out : String) (fresh : Fresh F) :
    Seeing data lost (cmdDecrypt C A D cwd data id user out fresh) := by
  apply (sees_loadSetup C D).bind
  rintro ⟨pp, msk⟩ -
  apply (sees_loadUserKey C D huser).bind
  intro usk _
  have hopen : Cmd.Only (FileOp.Sees (Visible data lost) (Probed data lost))
      (PackageStore.open (packagesDir data)) fun store => store = packageStore data :=
    (sees_single (Fs.single_createDirAll _).mapErr not_false).bind fun _ _ => Cmd.only_pure rfl
  apply hopen.mapErr.bind
  rintro store rfl
  apply (sees_get C D hid hlost).mapErr.bind
  intro package _
  apply (Cmd.only_outcome _).attempt.bind
  intro r _
  cases r with
  | ok plaintext =>
    exact (sees_single (Fs.single_write _ _).mapErr not_false).bind fun _ _ => sees_recordEvent D _
  | error e => exact (sees_recordEvent D _).bind fun _ _ => Cmd.only_outcome _

/-- **What a command sees**, unless it asks for a lost package. -/
theorem sees_run {call : Call F} (hcall : call.Proper cwd data)
    (hlost : ∀ id user out, call.command = .decrypt id user out → ¬ lost id) :
    Seeing data lost (call.command.run C A D cwd data call.fresh) := by
  obtain ⟨command, fresh⟩ := call
  obtain ⟨hregular, hown⟩ := hcall
  cases command with
  | setup => cases hregular
  | registerAuthority name controls =>
    exact (sees_loadRegistry D).bind fun _ _ => sees_single (Fs.single_write _ _).mapErr not_false
  | issue args => exact sees_cmdIssue C D hregular fresh
  | encrypt file policy => exact sees_cmdEncrypt C A D hown.1 policy fresh
  | decrypt id user out => exact sees_cmdDecrypt C A D hown.1 (hlost id user out rfl) hown.2 out fresh
  | revokeAttribute attr =>
    apply (sees_loadRevocation D).bind
    intro rl _
    refine (only_revokeAttribute D ?_).mapErr.bind fun _ _ => sees_recordEvent D _
    exact sees_single (Fs.single_write _ _).mapErr not_false
  | revokeUser user =>
    apply (sees_loadRevocation D).bind
    intro rl _
    refine (only_revokeUser D ?_).mapErr.bind fun _ _ => sees_recordEvent D _
    exact sees_single (Fs.single_write _ _).mapErr not_false

end Sees

/-! ## What each command leaves -/

section Leaves

variable {d : Disk} {w : World F G₁ G₂ Gₜ} {past : List Happening} {m : Monitor}

variable (C A D data) in
/-- The command has had no effect yet, beside further parameters and parts of a package that is lost. -/
def Unfinished (call : Call F) (msk : MasterSecret F) (past : List Happening) (m : Monitor) (d' : Disk) :
    Prop :=
  ∃ d₁ w₁, Mirrors C A D data d₁ w₁ past m ∧ w₁.msk = msk ∧ Resembles data (call.Takes D) d' d₁

variable (C A D cwd data) in
/-- The command succeeds alone, and the disk is the one it leaves then, beside the log and the manifest. -/
def Effective (call : Call F) (d d' : Disk) : Prop :=
  (call.exec C A D cwd data d).1 = .ok () ∧
    Resembles data (fun _ => False) d' (call.exec C A D cwd data d).2

variable (C A D cwd data) in
/-- What a command may leave when it is cut off or fails. -/
def Halted (call : Call F) (d : Disk) (msk : MasterSecret F) (past : List Happening) (m : Monitor)
    (d' : Disk) : Prop :=
  Unfinished C A D data call msk past m d' ∨ Effective C A D cwd data call d d'

omit [DecidableEq F] in
theorem Mirrors.unfinished (h : Mirrors C A D data d w past m) (call : Call F) :
    Unfinished C A D data call w.msk past m d :=
  ⟨d, w, h, rfl, Disk.Agree.refl d⟩

omit [DecidableEq F] in
theorem Unfinished.of_resembles {call : Call F} {msk : MasterSecret F} {d₁ d₂ : Disk}
    (h : Unfinished C A D data call msk past m d₁) (hd : Resembles data (call.Takes D) d₂ d₁) :
    Unfinished C A D data call msk past m d₂ := by
  obtain ⟨d₀, w₀, hmirrors, hmsk, hagree⟩ := h
  exact ⟨d₀, w₀, hmirrors, hmsk, hd.trans hagree⟩

theorem effective_of_exec {call : Call F} {d₁ d₂ : Disk} (hexec : call.exec C A D cwd data d = (.ok (), d₁))
    (hd : Resembles data (fun _ => False) d₂ d₁) : Effective C A D cwd data call d d₂ := by
  unfold Effective
  rw [hexec]
  exact ⟨rfl, hd⟩

omit [DecidableEq F] in
/-- The parameters are saved with further registrations. -/
theorem Mirrors.saved (h : Mirrors C A D data d w past m) {pp : PublicParams G₁ G₂ Gₜ}
    {msk : MasterSecret F} (hmsk : msk = w.msk)
    (hpp : ∃ calls : List (String × Rng F), pp = registerAll w.pp calls) :
    Mirrors C A D data (d.write (setupPath data) (setupBytes C D pp msk)) (w.withParams pp) past m := by
  obtain ⟨calls, rfl⟩ := hpp
  subst hmsk
  refine h.of_frame (h.represents.setup (h.represents.deployed.registerAll calls))
    (h.tells.withParams (extends_registerAll w.pp calls)) rfl rfl (fun _ => rfl) (fun _ => rfl)
    (fun id => ?_) fun p hp => ?_
  · rw [setupPath_eq]
    exact has_packageDir_write .setup id d _
  · rw [setupPath_eq]
    exact (Disk.lookup_write_ne (ne_path_of_not_own hp .setup) d _).trans (h.documents p hp)

/-- A state that does not depend on the log is kept by an event, wherever it is disturbed. -/
theorem wary_recordEvent {I J : Disk → Prop} (hJI : ∀ d, J d → I d)
    (hlog : ∀ d b, J d → J (d.append (auditPath data) b)) (hd : J d) (event : AuditEvent) :
    Fs.WarySafe I I (recordEvent D data event) (fun _ => J) d := by
  refine Cmd.Safe.mapErr (Cmd.Safe.bind (Q := fun _ => J) ?_ fun _ d hd => ?_)
  · exact Fs.wary_openAppend (hJI d hd) (hJI d hd) (hlog d _ hd)
  refine Cmd.Safe.bind (Q := fun _ => J) ?_ fun _ d hd => ?_
  · exact Fs.wary_append (hJI d hd) (fun n => hJI _ (hlog d _ hd)) (hlog d _ hd)
  · exact Fs.wary_append (hJI d hd) (fun n => hJI _ (hlog d _ hd)) (hlog d _ hd)

theorem wary_recordEvent_effective {call : Call F} {msk : MasterSecret F} {d' : Disk}
    (h : Effective C A D cwd data call d d') (event : AuditEvent) : Fs.WarySafe (Halted C A D cwd data call d msk past m)
      (Halted C A D cwd data call d msk past m) (recordEvent D data event)
      (fun _ => Effective C A D cwd data call d) d' :=
  wary_recordEvent (fun _ => Or.inr) (fun d b hd => ⟨hd.1, (resembles_log d b).trans hd.2⟩) h event

theorem wary_cmdRegisterAuthority (h : Mirrors C A D data d w past m) (name controls : String)
    (fresh : Fresh F) :
    let call := Call.mk (.registerAuthority name controls) fresh
    Fs.WarySafe (Halted C A D cwd data call d w.msk past m) (Halted C A D cwd data call d w.msk past m)
      (cmdRegisterAuthority D data name controls) (fun _ => Effective C A D cwd data call d) d := by
  intro call
  have hexec := exec_cmdRegisterAuthority D data name controls d
  change call.exec C A D cwd data d = _ at hexec
  apply (reads_loadRegistry D data d).then_wary (onlyReads_loadRegistry D data)
    (Or.inl (h.unfinished call)) (Or.inl (h.unfinished call))
  intro reg hreg
  rw [hreg, Cmd.andThen_ok] at hexec
  exact Fs.wary_write (Or.inl (h.unfinished call)) (Or.inl (h.unfinished call))
    (effective_of_exec hexec (Disk.Agree.refl _))

theorem wary_cmdRevokeAttribute (h : Mirrors C A D data d w past m) (attr : String) (fresh : Fresh F) :
    let call := Call.mk (.revokeAttribute attr) fresh
    Fs.WarySafe (Halted C A D cwd data call d w.msk past m) (Halted C A D cwd data call d w.msk past m)
      (cmdRevokeAttribute D data attr fresh) (fun _ => Effective C A D cwd data call d) d := by
  intro call
  have hexec := exec_cmdRevokeAttribute D data attr fresh d
  change call.exec C A D cwd data d = _ at hexec
  apply (reads_loadRevocation D data d).then_wary (onlyReads_loadRevocation D data)
    (Or.inl (h.unfinished call)) (Or.inl (h.unfinished call))
  intro rl hrl
  rw [hrl, Cmd.andThen_ok] at hexec
  refine Cmd.Safe.bind (Q := fun _ => Effective C A D cwd data call d) (Cmd.Safe.mapErr ?_)
    fun _ d' hd => wary_recordEvent_effective hd _
  refine safe_revokeAttribute D (Fs.wary_write (Or.inl (h.unfinished call)) (Or.inl (h.unfinished call)) ?_)
  exact effective_of_exec hexec (resembles_log _ _).symm

theorem wary_cmdRevokeUser (h : Mirrors C A D data d w past m) (user : String) (fresh : Fresh F) :
    let call := Call.mk (.revokeUser user) fresh
    Fs.WarySafe (Halted C A D cwd data call d w.msk past m) (Halted C A D cwd data call d w.msk past m)
      (cmdRevokeUser D data user fresh) (fun _ => Effective C A D cwd data call d) d := by
  intro call
  have hexec := exec_cmdRevokeUser D data user fresh d
  change call.exec C A D cwd data d = _ at hexec
  apply (reads_loadRevocation D data d).then_wary (onlyReads_loadRevocation D data)
    (Or.inl (h.unfinished call)) (Or.inl (h.unfinished call))
  intro rl hrl
  rw [hrl, Cmd.andThen_ok] at hexec
  refine Cmd.Safe.bind (Q := fun _ => Effective C A D cwd data call d) (Cmd.Safe.mapErr ?_)
    fun _ d' hd => wary_recordEvent_effective hd _
  refine safe_revokeUser D (Fs.wary_write (Or.inl (h.unfinished call)) (Or.inl (h.unfinished call)) ?_)
  exact effective_of_exec hexec (resembles_log _ _).symm

section Loading

variable (hC : C.ReadsBack) (hX : D.HexReadsBack) (hD : D.ReadsShallow)
include hC hX hD

theorem wary_cmdIssue (h : Mirrors C A D data d w past m) (args : IssueArgs) (fresh : Fresh F) :
    let call := Call.mk (.issue args) fresh
    Fs.WarySafe (Halted C A D cwd data call d w.msk past m) (Halted C A D cwd data call d w.msk past m)
      (cmdIssue C D data args fresh) (fun _ => Effective C A D cwd data call d) d := by
  intro call
  have hexec := exec_cmdIssue C D data args fresh d
  change call.exec C A D cwd data d = _ at hexec
  apply (reads_prepareIssue C D data args fresh d).then_wary (onlyReads_prepareIssue C D data args fresh)
    (Or.inl (h.unfinished call)) (Or.inl (h.unfinished call))
  intro key hkey
  obtain ⟨input, hadmits, -, hmsk, -, -, ⟨calls, -, hpp⟩, -⟩ := issueOutcome_eq_ok hkey
  obtain ⟨hpp', hmsk', -, -⟩ := h.represents.admits hC hX hD hadmits
  have hsaved : Unfinished C A D data call w.msk past m
      (d.write (setupPath data) (setupBytes C D key.pp key.msk)) := by
    have hcalls : ∃ calls : List (String × Rng F), key.pp = registerAll w.pp calls := ⟨calls, hpp' ▸ hpp⟩
    exact (h.saved (hmsk.trans hmsk') hcalls).unfinished call
  rw [hkey, Cmd.andThen_ok, afterIssue] at hexec
  refine Cmd.Safe.bind (Q := fun _ d' => d' = d.write (setupPath data) (setupBytes C D key.pp key.msk))
    ?_ ?_
  · exact Fs.wary_write (Or.inl (h.unfinished call)) (Or.inl (h.unfinished call)) rfl
  rintro - d' rfl
  refine Cmd.Safe.bind (Q := fun _ => Effective C A D cwd data call d) ?_
    fun _ d' hd => wary_recordEvent_effective hd _
  have hkeys : Unfinished C A D data call w.msk past m
      ((d.write (setupPath data) (setupBytes C D key.pp key.msk)).createDirAll (keysDir data)) :=
    hsaved.of_resembles (Disk.agree_createDirAll (fun _ hp => hp.notMem_keysDir) _)
  refine Cmd.Safe.bind (Q := fun _ d' =>
    d' = (d.write (setupPath data) (setupBytes C D key.pp key.msk)).createDirAll (keysDir data)) ?_ ?_
  · refine Fs.wary_createDirAll (Or.inl hsaved) (fun n => Or.inl (hsaved.of_resembles ?_)) rfl
    exact Disk.agree_createPart (fun _ hp => hp.notMem_keysDir) _ n
  rintro - d' rfl
  exact Fs.wary_write (Or.inl hkeys) (Or.inl hkeys) (effective_of_exec hexec (resembles_log _ _).symm)

theorem wary_cmdEncrypt (h : Mirrors C A D data d w past m) (file policy : String) (fresh : Fresh F) :
    let call := Call.mk (.encrypt file policy) fresh
    Fs.WarySafe (Halted C A D cwd data call d w.msk past m) (Halted C A D cwd data call d w.msk past m)
      (cmdEncrypt C A D cwd data file policy fresh) (fun _ => Effective C A D cwd data call d) d := by
  intro call
  have hexec := exec_cmdEncrypt C A D cwd data file policy fresh d
  change call.exec C A D cwd data d = _ at hexec
  have hid := isName_newId hX fresh.stamp
  have htakes : call.Takes D (newId D fresh.stamp) := ⟨⟨file, policy, rfl⟩, rfl⟩
  apply (reads_prepareEncrypt C D data policy fresh d).then_wary
    (onlyReads_prepareEncrypt C D data policy fresh)
    (Or.inl (h.unfinished call)) (Or.inl (h.unfinished call))
  intro prepared hprepared
  obtain ⟨pp, revocation, rawTree, hsetup, -, -, -, calls, -, hpp⟩ := encryptOutcome_eq_ok hprepared
  obtain ⟨hpp', hmsk⟩ :=
    Prod.mk.inj (Except.ok.inj (hsetup.symm.trans (h.represents.setupOn_eq hC hX hD)))
  rw [hprepared, Cmd.andThen_ok] at hexec
  have hcalls : ∃ calls : List (String × Rng F), prepared.pp = registerAll w.pp calls :=
    ⟨calls, hpp' ▸ hpp⟩
  have hsaved : Unfinished C A D data call w.msk past m
      (d.write (setupPath data) (setupBytes C D prepared.pp prepared.msk)) :=
    (h.saved hmsk hcalls).unfinished call
  refine Cmd.Safe.bind (Q := fun _ d' =>
    d' = d.write (setupPath data) (setupBytes C D prepared.pp prepared.msk)) ?_ ?_
  · exact Fs.wary_write (Or.inl (h.unfinished call)) (Or.inl (h.unfinished call)) rfl
  rintro - d' rfl
  generalize d.write (setupPath data) (setupBytes C D prepared.pp prepared.msk) = d₁ at hexec hsaved ⊢
  have hread : Fs.Reads (Fs.read (cwd.join file)) d₁ (Fs.replied (d₁.read (cwd.join file))) := rfl
  apply hread.mapErr.then_wary (Fs.onlyReads_read _).mapErr (Or.inl hsaved) (Or.inl hsaved)
  intro plaintext hplaintext
  apply (Fs.reads_ofOutcome _ d₁).then_wary (Cmd.only_outcome _) (Or.inl hsaved) (Or.inl hsaved)
  rintro ⟨package, rng⟩ hseal
  have hsealed : sealOutcome C A D cwd file policy fresh prepared d₁ = .ok package := by
    rw [sealOutcome, hplaintext, ok_bind, hseal]
    rfl
  rw [hsealed, Cmd.andThen_ok] at hexec
  have hopened : Unfinished C A D data call w.msk past m (d₁.createDirAll (packagesDir data)) :=
    hsaved.of_resembles (Disk.agree_createDirAll (fun _ hp => hp.notMem_packagesDir) _)
  refine Cmd.Safe.bind (Q := fun store d' => store = packageStore data ∧
    d' = d₁.createDirAll (packagesDir data)) (Cmd.Safe.mapErr ?_) ?_
  · refine Cmd.Safe.bind (Q := fun _ d' => d' = d₁.createDirAll (packagesDir data)) ?_
      fun _ d' hd => Cmd.safe_pure ⟨rfl, hd⟩
    refine Fs.wary_createDirAll (Or.inl hsaved) (fun n => Or.inl (hsaved.of_resembles ?_)) rfl
    exact Disk.agree_createPart (fun _ hp => hp.notMem_packagesDir) _ n
  rintro store d' ⟨rfl, rfl⟩
  refine Cmd.Safe.bind (Q := fun _ => Effective C A D cwd data call d) (Cmd.Safe.mapErr ?_)
    fun _ d' hd => wary_recordEvent_effective hd _
  rw [afterEncrypt] at hexec
  change call.exec C A D cwd data d = (.ok (), ((packageStore data).afterPut C D _ package _ _).append _ _)
    at hexec
  rw [PackageStore.afterPut] at hexec
  generalize d₁.createDirAll (packagesDir data) = d₂ at hexec hopened ⊢
  -- the directory and the sealed document are of a package that is lost
  have hdir : Unfinished C A D data call w.msk past m
      (d₂.createDirAll ((packageStore data).packageDir (newId D fresh.stamp))) :=
    hopened.of_resembles (Disk.agree_createDirAll (fun _ hp => hp.notMem_packageDir hid htakes) _)
  refine Cmd.Safe.bind (Q := fun _ d' =>
    d' = d₂.createDirAll ((packageStore data).packageDir (newId D fresh.stamp))) ?_ ?_
  · refine Fs.wary_createDirAll (Or.inl hopened) (fun n => Or.inl (hopened.of_resembles ?_)) rfl
    exact Disk.agree_createPart (fun _ hp => hp.notMem_packageDir hid htakes) _ n
  rintro - d' rfl
  generalize d₂.createDirAll ((packageStore data).packageDir (newId D fresh.stamp)) = d₃ at hexec hdir ⊢
  refine Cmd.Safe.bind (Q := fun _ d' => d' = d₃.write ((packageStore data).sealedPath (newId D fresh.stamp))
    (PackageStore.sealedBytes D package)) ?_ ?_
  · exact Fs.wary_write (Or.inl hdir) (Or.inl hdir) rfl
  rintro - d' rfl
  have hdocument : Unfinished C A D data call w.msk past m
      (d₃.write ((packageStore data).sealedPath (newId D fresh.stamp))
        (PackageStore.sealedBytes D package)) :=
    hdir.of_resembles (resembles_sealedDoc hid htakes d₃ _)
  -- with the wrapped key the package can be read
  refine Cmd.Safe.bind (Q := fun _ => Effective C A D cwd data call d) ?_ fun _ d' hd => ?_
  · refine Fs.wary_write (Or.inl hdocument) (Or.inl hdocument) (effective_of_exec hexec ?_)
    exact (resembles_manifest hid _ _).symm.trans (resembles_log _ _).symm
  refine Cmd.Safe.bind (Q := fun _ => Effective C A D cwd data call d) ?_ fun _ d' hd => Cmd.safe_pure hd
  exact Fs.wary_write (Or.inr hd) (Or.inr hd) ⟨hd.1, (resembles_manifest hid d' _).trans hd.2⟩

omit hC hX hD in
theorem wary_cmdDecrypt (h : Mirrors C A D data d w past m) (id user : String) {out : String}
    (fresh : Fresh F) :
    let call := Call.mk (.decrypt id user out) fresh
    Fs.WarySafe (Halted C A D cwd data call d w.msk past m) (Halted C A D cwd data call d w.msk past m)
      (cmdDecrypt C A D cwd data id user out fresh) (fun _ => Effective C A D cwd data call d) d := by
  intro call
  have hexec := exec_cmdDecrypt C A D cwd data id user out fresh d
  change call.exec C A D cwd data d = _ at hexec
  apply (reads_loadSetup C D data d).then_wary (onlyReads_loadSetup C D data)
    (Or.inl (h.unfinished call)) (Or.inl (h.unfinished call))
  rintro ⟨pp, msk⟩ hsetup
  apply (reads_loadUserKey C D data user d).then_wary (onlyReads_loadUserKey C D data user)
    (Or.inl (h.unfinished call)) (Or.inl (h.unfinished call))
  intro usk husk
  have hkey : keyOutcome C D data user d = .ok (pp, usk) := by
    rw [keyOutcome, hsetup, ok_bind]
    dsimp only
    rw [husk, ok_bind]
  rw [hkey, Cmd.andThen_ok] at hexec
  have hopened : Unfinished C A D data call w.msk past m (d.createDirAll (packagesDir data)) :=
    (h.unfinished call).of_resembles (Disk.agree_createDirAll (fun _ hp => hp.notMem_packagesDir) _)
  refine Cmd.Safe.bind (Q := fun store d' => store = packageStore data ∧
    d' = d.createDirAll (packagesDir data)) (Cmd.Safe.mapErr ?_) ?_
  · refine Cmd.Safe.bind (Q := fun _ d' => d' = d.createDirAll (packagesDir data)) ?_
      fun _ d' hd => Cmd.safe_pure ⟨rfl, hd⟩
    refine Fs.wary_createDirAll (Or.inl (h.unfinished call))
      (fun n => Or.inl ((h.unfinished call).of_resembles ?_)) rfl
    exact Disk.agree_createPart (fun _ hp => hp.notMem_packagesDir) _ n
  rintro store d' ⟨rfl, rfl⟩
  generalize d.createDirAll (packagesDir data) = d₁ at hexec hopened ⊢
  apply (PackageStore.reads_get C D (packageStore data) id d₁).mapErr.then_wary
    (onlyReads_get C D (packageStore data) id).mapErr (Or.inl hopened) (Or.inl hopened)
  intro package hpackage
  have hstored : storedOn C D data id d₁ = .ok package := hpackage
  rw [hstored, Cmd.andThen_ok] at hexec
  apply (Fs.reads_ofOutcome (Envelope.open C A D pp usk package) d₁).attempt.then_wary
    (Cmd.only_outcome _).attempt (Or.inl hopened) (Or.inl hopened)
  intro r hr
  rcases hopen : Envelope.open C A D pp usk package with (e | msg) | plaintext
  · rw [hopen] at hr
    obtain rfl := Except.ok.inj hr
    refine Cmd.Safe.bind (Q := fun _ => Unfinished C A D data call w.msk past m) ?_
      fun _ d' hd => Cmd.safe_ofOutcome (fun _ ho => by cases ho) (Or.inl hd)
    exact wary_recordEvent (fun _ => Or.inl) (fun d' b hd => hd.of_resembles (resembles_log d' b)) hopened _
  · rw [hopen] at hr
    cases hr
  · rw [hopen] at hr hexec
    obtain rfl := Except.ok.inj hr
    refine Cmd.Safe.bind (Q := fun _ => Effective C A D cwd data call d) ?_
      fun _ d' hd => wary_recordEvent_effective hd _
    exact Fs.wary_write (Or.inl hopened) (Or.inl hopened)
      (effective_of_exec hexec (resembles_log _ _).symm)

/-- **Every command**, wherever it is disturbed, has had no effect yet or has had all of it. It returns
with success only if it has had its effect. -/
theorem wary_run (h : Mirrors C A D data d w past m) {call : Call F} (hcall : call.Regular cwd data) :
    Fs.WarySafe (Halted C A D cwd data call d w.msk past m) (Halted C A D cwd data call d w.msk past m)
      (call.command.run C A D cwd data call.fresh) (fun _ => Effective C A D cwd data call d) d := by
  obtain ⟨command, fresh⟩ := call
  cases command with
  | setup => cases hcall
  | registerAuthority name controls => exact wary_cmdRegisterAuthority h name controls fresh
  | issue args => exact wary_cmdIssue hC hX hD h args fresh
  | encrypt file policy => exact wary_cmdEncrypt hC hX hD h file policy fresh
  | decrypt id user out => exact wary_cmdDecrypt h id user fresh
  | revokeAttribute attr => exact wary_cmdRevokeAttribute h attr fresh
  | revokeUser user => exact wary_cmdRevokeUser h user fresh

end Loading

end Leaves

end SecureABE.Cli
