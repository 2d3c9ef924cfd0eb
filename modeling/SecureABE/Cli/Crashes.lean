import SecureABE.Cli.Access
import SecureABE.Cli.Faults

/-!
# Crashes

Each command of a run may be cut off and each of its accesses may fail (`runAllFaulty`). Issuing and
encrypting save the parameters before anything that uses new attributes, and registration never
replaces a commitment. So on every disk that a run can leave, the parameters have the commitments that
the keys and packages were made with (`commitments_survive`).

`Coherent` is the invariant. It looks only at the files that carry attributes; a setup that is cut off
may leave none of them.
-/

namespace SecureABE.Cli

open Rust SecureABE.Core SecureABE.Policy SecureABE.Revocation SecureABE.Authorities SecureABE.Audit
  SecureABE.Envelope SecureABE.Storage

variable {F G₁ G₂ Gₜ : Type} [Field F] [DecidableEq F] [AddCommGroup G₁] [Module F G₁]
  [AddCommGroup G₂] [Module F G₂] [AddCommGroup Gₜ] [Module F Gₜ]
variable (C : Curve F G₁ G₂ Gₜ) (A : Cipher) (D : Codec) (cwd data : Path)

/-! ## Runs with faults -/

/-- The outcome of a command, none if it is cut off, and the disk after it. -/
def Call.execFaulty (call : Call F) (faults : List (Option Fault)) (d : Disk) :
    Option (Outcome String Unit) × Disk :=
  Prog.runFaulty FileOp.faulty (call.command.run C A D cwd data call.fresh) faults d

/-- The disk after a run, each command with its faults. -/
def runAllFaulty (calls : List (Call F × List (Option Fault))) (d : Disk) : Disk :=
  calls.foldl (fun d call => (call.1.execFaulty C A D cwd data call.2 d).2) d


/-- The files that attributes occur in. -/
def File.Carries : File → Prop
  | .setup | .key _ | .wrappedKey _ => True
  | _ => False

/-- A command after the setup. The name of a user does not lead out of the directory of the keys, and a
decrypted document does not replace a file that attributes occur in. -/
def Call.KeepsCarriers (call : Call F) : Prop :=
  match call.command with
  | .setup => False
  | .issue args => '/' ∉ args.user.toList
  | .decrypt _ _ out => ∀ f : File, f.Carries → f.path data ≠ cwd.join out
  | _ => True

/-! ## Commitments -/

/-- The commitment of an attribute has the exponent `t`. -/
def Commits (pp : PublicParams G₁ G₂ Gₜ) (a : String) (t : F) : Prop :=
  pp.attributes.lookup a = some ⟨t • C.g1, t • C.g2⟩

/-- The parameters on the disk have the exponents of the keys and packages on it. A leaf has `cy` and
`t • cy`, and a component of a key with the exponent `r` has `dJPrime` and `r • g2 + t • dJPrime`. -/
structure Committed (d : Disk) : Prop where
  packages : ∀ id b, view data d (.wrappedKey id) = some b → ∃ pp msk ct,
    setupOn C D data d = .ok (pp, msk) ∧ b = utf8 (ciphertextToJson C D ct) ∧
      ct.leaves.map LeafCiphertext.attr = ct.tree.leaves ∧
      ∀ a ∈ ct.tree.leaves, ∃ t : F, Commits C pp a t ∧
        ∀ leaf ∈ ct.leaves, leaf.attr = a → leaf.cyPrime = t • leaf.cy
  keys : ∀ user b, view data d (.key user) = some b → ∃ pp msk usk r,
    setupOn C D data d = .ok (pp, msk) ∧ b = userKeyBytes C D usk ∧
      usk.d = ((msk.alpha + r) * msk.beta⁻¹) • C.g2 ∧
      ∀ a share, usk.attributes.lookup a = some share → ∃ t : F, Commits C pp a t ∧
        share.dJ = r • C.g2 + t • share.dJPrime

/-- The keys and packages on the disk are made with the parameters on it. -/
structure Coherent (pp : PublicParams G₁ G₂ Gₜ) (msk : MasterSecret F) (d : Disk) : Prop where
  setup : view data d .setup = some (setupBytes C D pp msk)
  deployed : Deployed C msk pp
  keys : ∀ user b, view data d (.key user) = some b →
    ∃ usk attrs r, b = userKeyBytes C D usk ∧ Minted pp msk attrs r usk
  packages : ∀ id b, view data d (.wrappedKey id) = some b →
    ∃ package tree plaintext, b = PackageStore.keyBytes C D package ∧
      Seals C A D pp tree plaintext package

/-- The disk is coherent, or there is nothing on it yet. -/
def Sound (d : Disk) : Prop :=
  (∀ f : File, f.Carries → view data d f = none) ∨ ∃ pp msk, Coherent C A D data pp msk d

variable {C A D cwd data} {d : Disk}

/-! ### Changes -/

/-- A write to another file is not seen in these. -/
theorem view_write_of_not_carries {f : File} (hf : ¬ f.Carries) (d : Disk) (b : Bytes) (g : File)
    (hg : g.Carries) : view data (d.write (f.path data) b) g = view data d g := by
  rw [view_write, Function.update_of_ne]
  rintro rfl
  exact hf hg

section

omit [DecidableEq F]

theorem Coherent.of_view {pp : PublicParams G₁ G₂ Gₜ} {msk : MasterSecret F}
    (h : Coherent C A D data pp msk d) {d' : Disk}
    (hview : ∀ f : File, f.Carries → view data d' f = view data d f) :
    Coherent C A D data pp msk d' where
  setup := (hview .setup trivial).trans h.setup
  deployed := h.deployed
  keys := fun user b hb => h.keys user b ((hview (.key user) trivial).symm.trans hb)
  packages := fun id b hb => h.packages id b ((hview (.wrappedKey id) trivial).symm.trans hb)

theorem Sound.of_view (h : Sound C A D data d) {d' : Disk}
    (hview : ∀ f : File, f.Carries → view data d' f = view data d f) : Sound C A D data d' := by
  rcases h with hnone | ⟨pp, msk, h⟩
  · exact Or.inl fun f hf => (hview f hf).trans (hnone f hf)
  · exact Or.inr ⟨pp, msk, h.of_view hview⟩

theorem Coherent.createDirAll {pp : PublicParams G₁ G₂ Gₜ} {msk : MasterSecret F}
    (h : Coherent C A D data pp msk d) (p : Path) : Coherent C A D data pp msk (d.createDirAll p) :=
  h.of_view fun f _ => congrFun (view_createDirAll p) f

theorem Sound.createDirAll (h : Sound C A D data d) (p : Path) : Sound C A D data (d.createDirAll p) :=
  h.of_view fun f _ => congrFun (view_createDirAll p) f

theorem Sound.createPart (h : Sound C A D data d) (p : Path) (n : ℕ) :
    Sound C A D data (d.createPart p n) := by
  cases n with
  | zero => exact h
  | succ n => exact h.createDirAll _

/-- An event, or a part of it, is appended to the log. -/
theorem Sound.append (h : Sound C A D data d) (b : Bytes) :
    Sound C A D data (d.append (auditPath data) b) := by
  rw [auditPath_eq]
  exact h.of_view (view_write_of_not_carries (f := .audit) id d _)

/-- What is loaded from a sound disk is what the disk is coherent with. -/
theorem Sound.coherent (hC : C.ReadsBack) (hX : D.HexReadsBack) (hD : D.ReadsShallow)
    (h : Sound C A D data d) {pp : PublicParams G₁ G₂ Gₜ} {msk : MasterSecret F}
    (hsetup : setupOn C D data d = .ok (pp, msk)) : Coherent C A D data pp msk d := by
  rcases h with hnone | ⟨pp', msk', h⟩
  · have hfile : d.files.lookup (File.setup.path data) = none := hnone .setup trivial
    rw [setupOn, setupPath_eq, Disk.read, hfile] at hsetup
    cases hsetup
  · rw [setupOn_of_view hC hX hD h.deployed h.setup] at hsetup
    obtain ⟨rfl, rfl⟩ := Prod.mk.inj (Except.ok.inj hsetup)
    exact h

/-- The parameters are saved with further registrations. -/
theorem Coherent.saveSetup {pp pp' : PublicParams G₁ G₂ Gₜ} {msk : MasterSecret F}
    (h : Coherent C A D data pp msk d) {calls : List (String × Rng F)} (hpp : pp' = registerAll pp calls) :
    Coherent C A D data pp' msk (d.write (setupPath data) (setupBytes C D pp' msk)) := by
  have hext : Extends pp pp' := hpp ▸ extends_registerAll pp calls
  have hview : view data (d.write (File.setup.path data) (setupBytes C D pp' msk)) =
    Function.update (view data d) .setup (some (setupBytes C D pp' msk)) := view_write _ _
  rw [setupPath_eq]
  refine ⟨by rw [hview, Function.update_self], hpp ▸ h.deployed.registerAll calls, fun user b hb => ?_,
    fun id b hb => ?_⟩
  · rw [hview, Function.update_of_ne (by simp)] at hb
    obtain ⟨usk, attrs, r, hbytes, hminted⟩ := h.keys user b hb
    exact ⟨usk, attrs, r, hbytes, hminted.mono hext⟩
  · rw [hview, Function.update_of_ne (by simp)] at hb
    obtain ⟨package, tree, plaintext, hbytes, hseals⟩ := h.packages id b hb
    exact ⟨package, tree, plaintext, hbytes, hseals.mono hext⟩

/-- A key is saved that was made with the parameters. -/
theorem Coherent.saveUserKey {pp : PublicParams G₁ G₂ Gₜ} {msk : MasterSecret F}
    (h : Coherent C A D data pp msk d) (user : String) {attrs : List String} {r : F}
    {usk : UserSecretKey G₂} (husk : Minted pp msk attrs r usk) :
    Coherent C A D data pp msk (d.write ((File.key user).path data) (userKeyBytes C D usk)) := by
  have hview : view data (d.write ((File.key user).path data) (userKeyBytes C D usk)) =
    Function.update (view data d) (.key user) (some (userKeyBytes C D usk)) := view_write _ _
  refine ⟨?_, h.deployed, fun user' b hb => ?_, fun id b hb => h.packages id b ?_⟩
  · rw [hview, Function.update_of_ne (by simp), h.setup]
  · rw [hview, Function.update_apply] at hb
    split_ifs at hb with hu
    · exact ⟨usk, attrs, r, (Option.some.inj hb).symm, husk⟩
    · exact h.keys user' b hb
  · rw [← hb, hview, Function.update_of_ne (by simp)]

/-- A package is stored that was sealed with the parameters. -/
theorem Coherent.saveWrappedKey {pp : PublicParams G₁ G₂ Gₜ} {msk : MasterSecret F}
    (h : Coherent C A D data pp msk d) (id : String) {tree : AccessTree} {plaintext : Bytes}
    {package : EncryptedPackage G₁} (hseals : Seals C A D pp tree plaintext package) :
    Coherent C A D data pp msk
      (d.write ((File.wrappedKey id).path data) (PackageStore.keyBytes C D package)) := by
  have hview : view data (d.write ((File.wrappedKey id).path data) (PackageStore.keyBytes C D package)) =
    Function.update (view data d) (.wrappedKey id) (some (PackageStore.keyBytes C D package)) := view_write _ _
  refine ⟨?_, h.deployed, fun user b hb => h.keys user b ?_, fun id' b hb => ?_⟩
  · rw [hview, Function.update_of_ne (by simp), h.setup]
  · rw [← hb, hview, Function.update_of_ne (by simp)]
  · rw [hview, Function.update_apply] at hb
    split_ifs at hb with hid
    · exact ⟨package, tree, plaintext, (Option.some.inj hb).symm, hseals⟩
    · exact h.packages id' b hb

/-- Parameters are saved on a disk with nothing on it. -/
theorem coherent_saveSetup (hnone : ∀ f : File, f.Carries → view data d f = none)
    {pp : PublicParams G₁ G₂ Gₜ} {msk : MasterSecret F} (hpp : Deployed C msk pp) :
    Coherent C A D data pp msk (d.write (setupPath data) (setupBytes C D pp msk)) := by
  have hview : view data (d.write (File.setup.path data) (setupBytes C D pp msk)) =
    Function.update (view data d) .setup (some (setupBytes C D pp msk)) := view_write _ _
  rw [setupPath_eq]
  refine ⟨by rw [hview, Function.update_self], hpp, fun user b hb => ?_, fun id b hb => ?_⟩
  · rw [hview, Function.update_of_ne (by simp), hnone (.key user) trivial] at hb
    cases hb
  · rw [hview, Function.update_of_ne (by simp), hnone (.wrappedKey id) trivial] at hb
    cases hb

end

/-! ## The commands -/

/-- The program keeps the disk sound, wherever it is cut off and whatever fails. -/
abbrev Keeps (C : Curve F G₁ G₂ Gₜ) (A : Cipher) (D : Codec) (data : Path) {ε α : Type}
    (x : FileCmd ε α) (d : Disk) : Prop :=
  Fs.Safe (Sound C A D data) (Sound C A D data) x (fun _ => Sound C A D data) d

section

omit [DecidableEq F]

theorem keeps_recordEvent (h : Sound C A D data d) (event : AuditEvent) :
    Keeps C A D data (recordEvent D data event) d := by
  refine Cmd.Safe.mapErr (Cmd.Safe.bind (Q := fun _ => Sound C A D data) ?_ fun _ d h => ?_)
  · exact (Fs.safe_openAppend h h (h.append [])).mapErr
  refine Cmd.Safe.bind (Q := fun _ => Sound C A D data) ?_ fun _ d h => ?_
  · exact (Fs.safe_append h (fun n => h.append _) (h.append _)).mapErr
  · exact (Fs.safe_append h (fun n => h.append _) (h.append _)).mapErr

/-- A setup where nothing is yet. -/
theorem keeps_cmdSetup (fresh : Fresh F) (hnone : ∀ f : File, f.Carries → view data d f = none) :
    Keeps C A D data (cmdSetup C D data fresh) d := by
  have h : Sound C A D data d := Or.inl hnone
  refine Cmd.Safe.bind (Q := fun _ d => ∀ f : File, f.Carries → view data d f = none) ?_ fun _ d hnone => ?_
  · exact (Fs.safe_createDirAll h (fun n => h.createPart _ n) hnone).mapErr
  have h : Sound C A D data d := Or.inl hnone
  refine Cmd.Safe.bind (Q := fun _ => Sound C A D data) ?_ fun _ d h => ?_
  · exact (Fs.safe_write h h
      (Or.inr ⟨_, _, coherent_saveSetup hnone (deployed_setup C fresh.scalars)⟩)).mapErr
  refine Cmd.Safe.bind (Q := fun _ => Sound C A D data) ?_ fun _ d h => ?_
  · refine (Fs.safe_write h h ?_).mapErr
    rw [authoritiesPath_eq]
    exact h.of_view (view_write_of_not_carries (f := .authorities) id d _)
  refine Cmd.Safe.bind (Q := fun _ => Sound C A D data) ?_ fun _ d h => keeps_recordEvent h _
  exact (safe_open h (fun n => h.createPart _ n) (h.createDirAll _)).mapErr

theorem keeps_cmdRegisterAuthority (h : Sound C A D data d) (name controls : String) :
    Keeps C A D data (cmdRegisterAuthority D data name controls) d := by
  refine ((onlyReads_loadRegistry D data).peeks d).then h h fun reg _ => (Fs.safe_write h h ?_).mapErr
  rw [authoritiesPath_eq]
  exact h.of_view (view_write_of_not_carries (f := .authorities) id d _)

/-- The revocation list is saved. -/
theorem Sound.saveRevocation (h : Sound C A D data d) {rl : RevocationList}
    (hpath : rl.path = revocationPath data) (b : Bytes) : Sound C A D data (d.write rl.path b) := by
  rw [hpath, revocationPath_eq]
  exact h.of_view (view_write_of_not_carries (f := .revocation) id d _)

theorem keeps_cmdRevokeAttribute (h : Sound C A D data d) (attr : String) (fresh : Fresh F) :
    Keeps C A D data (cmdRevokeAttribute D data attr fresh) d := by
  apply ((onlyReads_loadRevocation D data).peeks d).then h h
  intro rl hpath
  refine Cmd.Safe.bind (Q := fun _ => Sound C A D data) ?_ fun _ d h => keeps_recordEvent h _
  exact (safe_revokeAttribute D (Fs.safe_write h h (h.saveRevocation hpath _)).mapErr).mapErr

theorem keeps_cmdRevokeUser (h : Sound C A D data d) (user : String) (fresh : Fresh F) :
    Keeps C A D data (cmdRevokeUser D data user fresh) d := by
  apply ((onlyReads_loadRevocation D data).peeks d).then h h
  intro rl hpath
  refine Cmd.Safe.bind (Q := fun _ => Sound C A D data) ?_ fun _ d h => keeps_recordEvent h _
  refine (safe_revokeUser D (Fs.safe_write h h ?_).mapErr).mapErr
  exact h.saveRevocation ((rl.path_withUser user).trans hpath) _

end

theorem keeps_cmdDecrypt (h : Sound C A D data d) (id user : String) {out : String}
    (hout : ∀ f : File, f.Carries → f.path data ≠ cwd.join out) (fresh : Fresh F) :
    Keeps C A D data (cmdDecrypt C A D cwd data id user out fresh) d := by
  apply (peeks_loadSetup C D data d).then h h
  intro setup _
  apply ((onlyReads_loadUserKey C D data user).peeks d).then h h
  intro usk _
  refine Cmd.Safe.bind (Q := fun _ => Sound C A D data) ?_ fun store d h => ?_
  · exact (safe_open h (fun n => h.createPart _ n) (h.createDirAll _)).mapErr
  apply ((onlyReads_get C D store id).peeks d).mapErr.then h h
  intro package _
  apply (Fs.peeks_ofOutcome (P := fun _ => True) fun _ _ => trivial).attempt.then h h
  intro r _
  cases r with
  | ok plaintext =>
    refine Cmd.Safe.bind (Q := fun _ => Sound C A D data) ?_ fun _ d h => keeps_recordEvent h _
    refine (Fs.safe_write h h (h.of_view fun f hf => ?_)).mapErr
    exact Disk.lookup_write_ne (hout f hf) d plaintext
  | error e =>
    apply Cmd.Safe.bind (Q := fun _ => Sound C A D data) (keeps_recordEvent h _)
    intro _ d h
    exact Cmd.safe_ofOutcome (fun _ _ => h) h

section Adding

variable (hC : C.ReadsBack) (hX : D.HexReadsBack) (hD : D.ReadsShallow)
include hC hX hD

theorem keeps_cmdIssue (h : Sound C A D data d) (args : IssueArgs) (huser : '/' ∉ args.user.toList)
    (fresh : Fresh F) : Keeps C A D data (cmdIssue C D data args fresh) d := by
  apply (peeks_prepareIssue C D data args fresh).then h h
  rintro key ⟨pp, hsetup, ⟨calls, hpp⟩, attrs, r, hminted⟩
  have hcoherent := h.coherent hC hX hD hsetup
  -- the parameters are on the disk before the key that needs them
  refine Cmd.Safe.bind (Q := fun _ => Coherent C A D data key.pp key.msk) ?_ fun _ d hd => ?_
  · exact (Fs.safe_write h h (hcoherent.saveSetup hpp)).mapErr
  have h : Sound C A D data d := Or.inr ⟨_, _, hd⟩
  refine Cmd.Safe.bind (Q := fun _ => Sound C A D data) ?_ fun _ d h => keeps_recordEvent h _
  refine Cmd.Safe.bind (Q := fun _ => Coherent C A D data key.pp key.msk) ?_ fun _ d hd => ?_
  · exact (Fs.safe_createDirAll h (fun n => h.createPart _ n) (hd.createDirAll _)).mapErr
  have h : Sound C A D data d := Or.inr ⟨_, _, hd⟩
  refine (Fs.safe_write h h ?_).mapErr
  rw [keyFile_eq huser]
  exact Or.inr ⟨_, _, hd.saveUserKey args.user hminted⟩

omit hC hD [DecidableEq F] in
/-- A package is stored that was sealed with the parameters on the disk. -/
theorem keeps_put {pp : PublicParams G₁ G₂ Gₜ} {msk : MasterSecret F}
    (hd : Coherent C A D data pp msk d) (originalFilename : String) {tree : AccessTree}
    {plaintext : Bytes} {package : EncryptedPackage G₁} (hseals : Seals C A D pp tree plaintext package)
    (stamp : Stamp) :
    Keeps C A D data ((packageStore data).put C D originalFilename package stamp) d := by
  have hid := isName_newId hX stamp
  have h : Sound C A D data d := Or.inr ⟨_, _, hd⟩
  refine Cmd.Safe.bind (Q := fun _ => Coherent C A D data pp msk) ?_ fun _ d hd => ?_
  · exact (Fs.safe_createDirAll h (fun n => h.createPart _ n) (hd.createDirAll _)).mapErr
  have h : Sound C A D data d := Or.inr ⟨_, _, hd⟩
  refine Cmd.Safe.bind (Q := fun _ => Coherent C A D data pp msk) ?_ fun _ d hd => ?_
  · refine (Fs.safe_write h h ?_).mapErr
    rw [sealedPath_eq hid]
    exact hd.of_view (view_write_of_not_carries (f := .sealedDoc _) id d _)
  have h : Sound C A D data d := Or.inr ⟨_, _, hd⟩
  refine Cmd.Safe.bind (Q := fun _ => Sound C A D data) ?_ fun _ d h => ?_
  · refine (Fs.safe_write h h ?_).mapErr
    rw [wrappedKeyPath_eq hid]
    exact Or.inr ⟨_, _, hd.saveWrappedKey _ hseals⟩
  refine Cmd.Safe.bind (Q := fun _ => Sound C A D data) ?_ fun _ d h => Cmd.safe_pure h
  refine (Fs.safe_write h h ?_).mapErr
  rw [manifestPath_eq hid]
  exact h.of_view (view_write_of_not_carries (f := .manifest _) id d _)

omit [DecidableEq F] in
theorem keeps_cmdEncrypt (h : Sound C A D data d) (file policy : String) (fresh : Fresh F) :
    Keeps C A D data (cmdEncrypt C A D cwd data file policy fresh) d := by
  apply (peeks_prepareEncrypt C D data policy fresh).then h h
  rintro prepared ⟨pp, hsetup, calls, hpp⟩
  have hcoherent := h.coherent hC hX hD hsetup
  -- the parameters are on the disk before the package that needs them
  refine Cmd.Safe.bind (Q := fun _ => Coherent C A D data prepared.pp prepared.msk) ?_ fun _ d hd => ?_
  · exact (Fs.safe_write h h (hcoherent.saveSetup hpp)).mapErr
  have h : Sound C A D data d := Or.inr ⟨_, _, hd⟩
  apply (Fs.peeks_read _ d).mapErr.then h h
  intro plaintext _
  apply (Fs.peeks_ofOutcome fun sealed hsealed => hsealed).then h h
  rintro ⟨package, rng⟩ hsealed
  have hseals := seals_of_seal_eq_ok (Outcome.mapErr_eq_ok.1 hsealed)
  refine Cmd.Safe.bind (Q := fun store d => store = packageStore data ∧
    Coherent C A D data prepared.pp prepared.msk d) ?_ ?_
  · exact (safe_open h (fun n => h.createPart _ n) ⟨rfl, hd.createDirAll _⟩).mapErr
  rintro store d ⟨rfl, hd⟩
  refine Cmd.Safe.bind (Q := fun _ => Sound C A D data) ?_ fun _ d h => keeps_recordEvent h _
  exact (keeps_put hX hd _ hseals fresh.stamp).mapErr

/-- **One command**, with faults, keeps the disk sound. -/
theorem Sound.execFaulty (h : Sound C A D data d) {call : Call F} (hcall : call.KeepsCarriers cwd data)
    (faults : List (Option Fault)) : Sound C A D data (call.execFaulty C A D cwd data faults d).2 := by
  obtain ⟨command, fresh⟩ := call
  cases command with
  | setup => cases hcall
  | registerAuthority name controls => exact (keeps_cmdRegisterAuthority h name controls).of_run faults
  | issue args => exact (keeps_cmdIssue hC hX hD h args hcall fresh).of_run faults
  | encrypt file policy => exact (keeps_cmdEncrypt hC hX hD h file policy fresh).of_run faults
  | decrypt id user out => exact (keeps_cmdDecrypt h id user hcall fresh).of_run faults
  | revokeAttribute attr => exact (keeps_cmdRevokeAttribute h attr fresh).of_run faults
  | revokeUser user => exact (keeps_cmdRevokeUser h user fresh).of_run faults

/-- **A run**, with faults, keeps the disk sound. -/
theorem Sound.runAllFaulty (h : Sound C A D data d) {calls : List (Call F × List (Option Fault))}
    (hcalls : ∀ call ∈ calls, call.1.KeepsCarriers cwd data) :
    Sound C A D data (runAllFaulty C A D cwd data calls d) := by
  induction calls generalizing d with
  | nil => exact h
  | cons call calls ih =>
    have hfirst : Sound C A D data (call.1.execFaulty C A D cwd data call.2 d).2 :=
      h.execFaulty hC hX hD (hcalls call (by simp)) call.2
    exact ih hfirst fun call hcall => hcalls call (by simp [hcall])

/-! ## Commitments survive -/

omit hC hX hD [DecidableEq F] in
/-- The leaves of a ciphertext were made under the exponents of the parameters. -/
theorem exponents_of_encrypted {pp : PublicParams G₁ G₂ Gₜ} {msk : MasterSecret F} (hpp : Deployed C msk pp)
    {dek : ByteArr 32} {tree : AccessTree} {s : F} {rng : Rng F} {ct : AbeCiphertext G₁}
    (h : Encrypted C A D pp dek tree s rng ct) :
    ct.leaves.map LeafCiphertext.attr = ct.tree.leaves ∧
      ∀ a ∈ ct.tree.leaves, ∃ t : F, Commits C pp a t ∧
        ∀ leaf ∈ ct.leaves, leaf.attr = a → leaf.cyPrime = t • leaf.cy := by
  have hattrs : ct.leaves.map LeafCiphertext.attr = ct.tree.leaves := by
    rw [h.tree_eq, map_attr_leaves h.leaves, map_attr_sharesAt]
  have hleaf : ∀ leaf ∈ ct.leaves, ∃ c, pp.attributes.lookup leaf.attr = some c ∧
      ∃ lambda : F, leaf.cy = lambda • C.g1 ∧ leaf.cyPrime = lambda • c.t1 := by
    intro leaf hmem
    obtain ⟨share, -, c, hc, rfl⟩ := exists_share_of_leaf h.leaves hmem
    exact ⟨c, hc, share.lambda, by rw [hpp.g1], rfl⟩
  refine ⟨hattrs, fun a ha => ?_⟩
  rw [← hattrs] at ha
  obtain ⟨leaf₀, hmem₀, rfl⟩ := List.mem_map.1 ha
  obtain ⟨c, hc, -⟩ := hleaf leaf₀ hmem₀
  obtain ⟨t, rfl⟩ := hpp.commitment _ c hc
  refine ⟨t, hc, fun leaf hmem hattr => ?_⟩
  obtain ⟨c', hc', lambda, hcy, hcyPrime⟩ := hleaf leaf hmem
  rw [hattr, hc] at hc'
  obtain rfl := Option.some.inj hc'
  rw [hcyPrime, hcy, smul_comm]

omit [DecidableEq F] in
/-- A sound disk has the exponents of its keys and packages. -/
theorem Sound.committed (h : Sound C A D data d) : Committed C D data d := by
  rcases h with hnone | ⟨pp, msk, h⟩
  · refine ⟨fun id b hb => ?_, fun user b hb => ?_⟩
    · rw [hnone (.wrappedKey id) trivial] at hb
      cases hb
    · rw [hnone (.key user) trivial] at hb
      cases hb
  · have hsetup := setupOn_of_view hC hX hD h.deployed h.setup
    refine ⟨fun id b hb => ?_, fun user b hb => ?_⟩
    · obtain ⟨package, tree, plaintext, rfl, dek, s, rng, henc, -⟩ := h.packages id b hb
      exact ⟨pp, msk, package.keyCiphertext, hsetup, rfl, exponents_of_encrypted h.deployed henc⟩
    · obtain ⟨usk, attrs, r, rfl, hminted⟩ := h.keys user b hb
      refine ⟨pp, msk, usk, r, hsetup, rfl, by rw [hminted.d, h.deployed.g2], fun a share hshare => ?_⟩
      obtain ⟨c, rJ, hc, rfl⟩ := hminted.component a share hshare
      obtain ⟨t, rfl⟩ := h.deployed.commitment a c hc
      refine ⟨t, hc, ?_⟩
      rw [h.deployed.g2, smul_comm]

/-- **Commitments are stable across crashes**: after a setup where nothing is yet and any run of other
commands, each of which may be cut off or fail, the parameters on the disk have the attributes of every
key and package on it, with the exponents that these were made under. -/
theorem commitments_survive (hd : ∀ f : File, f.Carries → view data d f = none) (setupFresh : Fresh F)
    (setupFaults : List (Option Fault)) {calls : List (Call F × List (Option Fault))}
    (hcalls : ∀ call ∈ calls, call.1.KeepsCarriers cwd data) :
    Committed C D data
      (runAllFaulty C A D cwd data ((⟨.setup, setupFresh⟩, setupFaults) :: calls) d) := by
  have hstart : Sound C A D data ((Call.mk .setup setupFresh).execFaulty C A D cwd data setupFaults d).2 :=
    (keeps_cmdSetup setupFresh hd).of_run setupFaults
  exact (hstart.runAllFaulty hC hX hD hcalls).committed hC hX hD

end Adding

variable (C A D cwd data) in
/-- Without faults, a run is a run. -/
theorem exists_runAllFaulty_eq (calls : List (Call F)) (d : Disk) :
    ∃ faulty : List (Call F × List (Option Fault)), faulty.map Prod.fst = calls ∧
      runAllFaulty C A D cwd data faulty d = runAll C A D cwd data calls d := by
  induction calls generalizing d with
  | nil => exact ⟨[], rfl, rfl⟩
  | cons call calls ih =>
    obtain ⟨n, hn⟩ : ∃ n, call.execFaulty C A D cwd data (List.replicate n none) d = (some _, _) :=
      Prog.exists_runFaulty_replicate (fun _ _ => rfl) (call.command.run C A D cwd data call.fresh) d
    obtain ⟨faulty, hcalls, hrun⟩ := ih (call.exec C A D cwd data d).2
    refine ⟨(call, List.replicate n none) :: faulty, by rw [List.map_cons, hcalls], ?_⟩
    rw [runAllFaulty, List.foldl_cons, hn]
    exact hrun

/-- An encryption that is cut off after it has saved the parameters. -/
theorem exists_execFaulty_encrypt (A : Cipher) (cwd : Path) (file : String) {policy : String}
    {fresh : Fresh F} {d : Disk} {prepared : Prepared F G₁ G₂ Gₜ}
    (h : encryptOutcome C D data policy fresh d = .ok prepared) :
    ∃ faults, (Call.mk (.encrypt file policy) fresh).execFaulty C A D cwd data faults d =
      (none, d.write (setupPath data) (setupBytes C D prepared.pp prepared.msk)) := by
  have hprepare : (prepareEncrypt C D data policy fresh).run FileOp.handle d = (.ok prepared, d) :=
    h ▸ reads_prepareEncrypt C D data policy fresh d
  have hsave : (saveSetup C D data prepared.pp prepared.msk).run FileOp.handle d =
    (.ok (), d.write (setupPath data) (setupBytes C D prepared.pp prepared.msk)) := rfl
  have hnone : ∀ (op : FileOp) (d : Disk), FileOp.faulty none op d = FileOp.handle op d := fun _ _ => rfl
  obtain ⟨n, hn⟩ := Prog.exists_runFaulty_bind (β := Outcome String Unit) hnone
    (prepareEncrypt C D data policy fresh) d
  obtain ⟨n', hn'⟩ := Prog.exists_runFaulty_bind (β := Outcome String Unit) hnone
    (saveSetup C D data prepared.pp prepared.msk) d
  refine ⟨List.replicate n none ++ (List.replicate n' none ++ []), (hn _ _).trans ?_⟩
  rw [hprepare]
  refine (hn' _ _).trans ?_
  rw [hsave]
  rfl

/-- The registry is encrypted for the holders of `b`. -/
def exampleRevise : Call Scalar := ⟨.encrypt "/data/authorities.json" "b", exampleFresh⟩

/-- The attribute `a` is issued to Alice, and a package stored under it; then an encryption under `b` is
cut off after it has saved the parameters. -/
theorem commitments_survive_exampleRun : ∃ (faulty : List (Call Scalar × List (Option Fault)))
    (faults : List (Option Fault)) (prepared : Prepared Scalar Scalar Scalar Scalar),
    faulty.map Prod.fst = exampleRun ++ [exampleEncrypt] ∧
    let d := runAllFaulty exponents boxes serdeJsonUnlimited exampleCwd exampleData faulty emptyDisk
    exampleRevise.execFaulty exponents boxes serdeJsonUnlimited exampleCwd exampleData faults d =
      (none, d.write (setupPath exampleData)
        (setupBytes exponents serdeJsonUnlimited prepared.pp prepared.msk)) ∧
    (∃ b, view exampleData d (.wrappedKey exampleId) = some b) ∧
    Committed exponents serdeJsonUnlimited exampleData (runAllFaulty exponents boxes serdeJsonUnlimited
      exampleCwd exampleData (faulty ++ [(exampleRevise, faults)]) emptyDisk) := by
  have hX := hexReadsBack_serdeJsonUnlimited
  have hD := readsBack_serdeJsonUnlimited.shallow
  obtain ⟨faulty, hcalls, hrun⟩ := exists_runAllFaulty_eq exponents boxes serdeJsonUnlimited exampleCwd
    exampleData (exampleRun ++ [exampleEncrypt]) emptyDisk
  obtain ⟨w, registry, h, -, ht, -⟩ := exists_represents_exampleEncrypt
  obtain ⟨prepared, hprepared⟩ := exists_encryptOutcome exampleFresh
    (h.setupOn_eq readsBack_exponents hX hD) (h.revocationOn_eq hD) (rfl : parse "b" = .ok (.leaf "b"))
  obtain ⟨faults, hcut⟩ := exists_execFaulty_encrypt boxes exampleCwd "/data/authorities.json" hprepared
  refine ⟨faulty, faults, prepared, hcalls, ?_⟩
  dsimp only
  refine ⟨hrun ▸ hcut, ?_, ?_⟩
  · obtain ⟨filed, -, hfiled, -⟩ := ht.packages _ _ _ _ (lastStored_example _)
    rw [hrun, h.view, World.contents, hfiled]
    exact ⟨_, rfl⟩
  · obtain ⟨⟨call, setupFaults⟩, rest, rfl, hfirst, hrest⟩ := List.map_eq_cons_iff.1 hcalls
    obtain rfl : call = ⟨.setup, exampleFresh⟩ := hfirst
    have hkeeps : ∀ call ∈ rest ++ [(exampleRevise, faults)],
        call.1.KeepsCarriers exampleCwd exampleData := by
      refine List.forall_mem_append.2 ⟨fun call hcall => ?_, List.forall_mem_singleton.2 trivial⟩
      have hmem : call.1 ∈ rest.map Prod.fst := List.mem_map_of_mem hcall
      rw [hrest] at hmem
      revert hmem
      generalize call.1 = c
      revert c
      exact List.forall_mem_cons.2 ⟨trivial, List.forall_mem_cons.2
        ⟨(by decide : '/' ∉ ("alice" : String).toList), List.forall_mem_singleton.2 trivial⟩⟩
    exact commitments_survive readsBack_exponents hX hD (fun _ _ => rfl) exampleFresh setupFaults hkeeps

end SecureABE.Cli
