import SecureABE.Cli.Encrypting
import SecureABE.Cli.Issuing
import SecureABE.Foundations.FaultyDisk

/-!
# The commands on a device that may fail

Up to its first write a command only reads. If it gets there at all it has the parameters that the disk
holds, with further registrations, whatever else could not be read (`peeks_prepareIssue`,
`peeks_prepareEncrypt`).
-/

namespace SecureABE.Cli

open Rust SecureABE.Core SecureABE.Policy SecureABE.Revocation SecureABE.Authorities SecureABE.Audit
  SecureABE.Storage

variable {F G₁ G₂ Gₜ : Type} [Field F] [DecidableEq F] [AddCommGroup G₁] [Module F G₁]
  [AddCommGroup G₂] [Module F G₂] [AddCommGroup Gₜ] [Module F Gₜ]
variable (C : Curve F G₁ G₂ Gₜ) (D : Codec) (data : Path)

/-! ## Loading -/

omit [DecidableEq F] in
theorem onlyReads_loadSetup : Fs.OnlyReads (loadSetup C D data) fun _ => True :=
  (Fs.onlyReads_readToString _).mapErr.bind fun _ _ => Cmd.only_outcome _

theorem only_loadRegistry {P : FileOp → Prop} (hexist : P (.exist (authoritiesPath data)))
    (hread : P (.read (authoritiesPath data))) : Cmd.Only P (loadRegistry D data) fun _ => True :=
  (Fs.only_exist hexist).bind fun _ _ => (Cmd.only_pure trivial).ite
    ((Fs.only_readToString hread).mapErr.bind fun _ _ => Cmd.only_outcome _)

theorem onlyReads_loadRegistry : Fs.OnlyReads (loadRegistry D data) fun _ => True :=
  only_loadRegistry D data trivial trivial

theorem only_loadRevocation {P : FileOp → Prop} (hexist : P (.exist (revocationPath data)))
    (hread : P (.read (revocationPath data))) :
    Cmd.Only P (loadRevocation D data) fun rl => rl.path = revocationPath data := by
  have hload : Cmd.Only P (RevocationState.load D (revocationPath data)) fun _ => True :=
    (Fs.only_exist hexist).bind fun _ _ => Cmd.Only.ite
      ((Fs.only_readToString hread).mapErr.bind fun _ _ => Cmd.only_outcome _) (Cmd.only_pure trivial)
  have hopen : Cmd.Only P (RevocationList.open D (revocationPath data)) fun rl =>
      rl.path = revocationPath data := hload.bind fun _ _ => Cmd.only_pure rfl
  exact hopen.mapErr

theorem onlyReads_loadRevocation :
    Fs.OnlyReads (loadRevocation D data) fun rl => rl.path = revocationPath data :=
  only_loadRevocation D data trivial trivial

omit [DecidableEq F] in
theorem onlyReads_loadUserKey (user : String) :
    Fs.OnlyReads (loadUserKey C D data user) fun _ => True :=
  (Fs.onlyReads_readToString _).mapErr.bind fun _ _ => Cmd.only_outcome _

omit [DecidableEq F] in
theorem onlyReads_get (store : PackageStore) (id : String) :
    Fs.OnlyReads (store.get C D id) fun _ => True := by
  refine (Fs.onlyReads_exist _).bind fun _ _ => (Cmd.only_outcome _).ite ?_
  refine (Fs.onlyReads_readToString _).mapErr.bind fun _ _ => (Cmd.only_outcome _).bind fun _ _ => ?_
  refine (Fs.onlyReads_readToString _).mapErr.bind fun _ _ => (Cmd.only_outcome _).bind fun _ _ => ?_
  exact Cmd.only_pure trivial

omit [DecidableEq F] in
/-- What is loaded is on the disk. -/
theorem peeks_loadSetup (d : Disk) :
    Fs.Peeks (loadSetup C D data) d fun setup => setupOn C D data d = .ok setup :=
  (Fs.peeks_readToString _ d).mapErr.bind fun s hs => Fs.peeks_ofOutcome fun setup hsetup => by
    rw [setupOn, hs]
    exact hsetup

/-! ## Writing -/

variable {I E : Disk → Prop} {d : Disk}

/-- The directory of a store is created. -/
theorem safe_open {root : Path} {Q : PackageStore → Disk → Prop} (hcut : I d)
    (hfault : ∀ n, E (d.createPart root n)) (hdone : Q ⟨root⟩ (d.createDirAll root)) :
    Fs.Safe I E (PackageStore.open root) Q d :=
  Cmd.Safe.bind (Q := fun _ d => Q ⟨root⟩ d) (Fs.safe_createDirAll hcut hfault hdone).mapErr
    fun _ _ hd => Cmd.safe_pure hd

section Revoking

variable {Φ S : Type} {device : Device FileOp.Reply Φ S} {I E Q : S → Prop} {s : S}
variable {rl : RevocationList}

/-- What happens is that the list with the next epoch is saved. -/
theorem safe_revokeAttribute {attr : String}
    (hsave : Cmd.Safe device I E ((rl.bumped attr).save D) (fun _ => Q) s) :
    Cmd.Safe device I E (dropReceiver (rl.revokeAttribute D attr)) (fun _ => Q) s := by
  refine Prog.Safe.bind (Q := fun (r : Outcome RevocationError UInt64 × RevocationList) s =>
    (∀ n, r.1 = .ok n → Q s) ∧ ∀ e, r.1 = .error e → E s) ?_ fun _ _ hs => hs
  apply Prog.Safe.bind hsave
  intro saved s hs
  cases saved with
  | ok u => exact ⟨fun _ _ => hs.1 u rfl, fun e he => (by cases he)⟩
  | error e => exact ⟨fun a ha => (by cases ha), fun _ _ => hs.2 e rfl⟩

theorem safe_revokeUser {user : String}
    (hsave : Cmd.Safe device I E ((rl.withUser user).save D) (fun _ => Q) s) :
    Cmd.Safe device I E (dropReceiver (rl.revokeUser D user)) (fun _ => Q) s := by
  refine Prog.Safe.bind (Q := fun (r : Outcome RevocationError Unit × RevocationList) s =>
    (∀ u, r.1 = .ok u → Q s) ∧ ∀ e, r.1 = .error e → E s) ?_ fun _ _ hs => hs
  exact Prog.Safe.bind hsave fun saved s hs => hs

theorem only_revokeAttribute {P : FileOp → Prop} {attr : String}
    (hsave : Cmd.Only P ((rl.bumped attr).save D) fun _ => True) :
    Cmd.Only P (dropReceiver (rl.revokeAttribute D attr)) fun _ => True := by
  refine Prog.Only.bind (V := fun _ => True) ?_ fun _ _ _ _ => trivial
  exact Prog.Only.bind hsave fun _ _ => trivial

theorem only_revokeUser {P : FileOp → Prop} {user : String}
    (hsave : Cmd.Only P ((rl.withUser user).save D) fun _ => True) :
    Cmd.Only P (dropReceiver (rl.revokeUser D user)) fun _ => True := by
  refine Prog.Only.bind (V := fun _ => True) ?_ fun _ _ _ _ => trivial
  exact Prog.Only.bind hsave fun _ _ => trivial

end Revoking

/-! ## Preparing -/

theorem onlyReads_prepareIssue (args : IssueArgs) (fresh : Fresh F) :
    Fs.OnlyReads (prepareIssue C D data args fresh) fun _ => True := by
  apply (onlyReads_loadSetup C D data).bind
  rintro ⟨pp, msk⟩ -
  apply (onlyReads_loadRegistry D data).bind
  intro _ _
  apply (onlyReads_loadRevocation D data).bind
  intro _ _
  apply (Fs.onlyReads_readToString _).attempt.bind
  intro _ _
  refine (onlyReads_loadRevocation D data).bind fun _ _ => (Cmd.only_outcome _).ite ?_
  refine (Cmd.only_outcome _).bind fun _ _ => (Cmd.only_outcome _).bind fun _ _ => ?_
  exact (onlyReads_loadUserKey C D data args.user).attempt.bind fun _ _ => Cmd.only_outcome _

omit [DecidableEq F] in
theorem onlyReads_prepareEncrypt (policy : String) (fresh : Fresh F) :
    Fs.OnlyReads (prepareEncrypt C D data policy fresh) fun _ => True := by
  apply (onlyReads_loadSetup C D data).bind
  rintro ⟨pp, msk⟩ -
  refine (onlyReads_loadRevocation D data).bind fun _ _ => (Cmd.only_outcome _).bind fun _ _ => ?_
  exact Cmd.only_pure trivial

/-- **A key that is ready to be saved** is minted with the parameters on the disk, extended. -/
theorem peeks_prepareIssue (args : IssueArgs) (fresh : Fresh F) :
    Fs.Peeks (prepareIssue C D data args fresh) d fun key =>
      ∃ pp, setupOn C D data d = .ok (pp, key.msk) ∧
        (∃ calls : List (String × Rng F), key.pp = registerAll pp calls) ∧
        ∃ attrs r, Minted key.pp key.msk attrs r key.usk := by
  apply (peeks_loadSetup C D data d).bind
  rintro ⟨pp, msk⟩ hsetup
  apply ((onlyReads_loadRegistry D data).peeks d).bind
  intro registry _
  apply ((onlyReads_loadRevocation D data).peeks d).bind
  intro revocation _
  apply ((Fs.onlyReads_readToString _).peeks d).attempt.bind
  intro hint _
  apply ((onlyReads_loadRevocation D data).peeks d).bind
  intro revCheck _
  apply Fs.Peeks.ite (fun _ => Fs.peeks_ofOutcome fun key hkey => (by cases hkey))
  intro _
  apply (Fs.peeks_ofOutcome (P := fun _ => True) fun _ _ => trivial).bind
  intro claims _
  apply (Fs.peeks_ofOutcome fun st hst => hst).bind
  intro st hst
  apply ((onlyReads_loadUserKey C D data args.user).peeks d).attempt.bind
  intro existing _
  apply Fs.peeks_ofOutcome
  intro key hkey
  obtain ⟨-, hpp, rfl, -, -, r, hminted⟩ := mintKey_eq_ok hkey
  obtain ⟨-, calls, -, hcalls⟩ := exists_registerAll_foldl_add revocation (resolved claims)
    { pp, flatAttrs := [], rng := fresh.scalars }
  rw [(grantClaims_eq_ok.1 hst).2] at hcalls
  exact ⟨pp, hsetup, ⟨calls, hpp.trans hcalls⟩, key.flatAttrs, r, hpp ▸ hminted⟩

omit [DecidableEq F] in
/-- **What is prepared for a package** has the parameters on the disk, extended. -/
theorem peeks_prepareEncrypt (policy : String) (fresh : Fresh F) :
    Fs.Peeks (prepareEncrypt C D data policy fresh) d fun prepared =>
      ∃ pp, setupOn C D data d = .ok (pp, prepared.msk) ∧
        ∃ calls : List (String × Rng F), prepared.pp = registerAll pp calls := by
  apply (peeks_loadSetup C D data d).bind
  rintro ⟨pp, msk⟩ hsetup
  apply ((onlyReads_loadRevocation D data).peeks d).bind
  intro revocation _
  apply (Fs.peeks_ofOutcome (P := fun _ => True) fun _ _ => trivial).bind
  intro rawTree _
  refine Fs.peeks_pure ⟨pp, hsetup, ?_⟩
  obtain ⟨calls, -, hcalls⟩ := exists_registerAll_registerLeaves (retagTree rawTree revocation).leaves
    pp fresh.scalars
  exact ⟨calls, hcalls⟩

end SecureABE.Cli
