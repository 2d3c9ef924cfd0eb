import SecureABE.Cli.Faults
import SecureABE.Cli.Levels
import SecureABE.Foundations.Flaky

/-!
# Issuing when a file cannot be read

`cmd_issue` merges the names of the key on file into the key it mints, and takes a key that it cannot
read for one that is not there. With one access that fails, the key on file keeps what it has, and is not
replaced unread, exactly if the access is not the read of the key by a command that is permitted
(`keepsKey_iff`). Then the key is replaced by one with the new attributes alone (`replaced_of_unread`).
-/

namespace SecureABE.Cli

open Rust SecureABE.Core SecureABE.Policy SecureABE.Revocation SecureABE.Authorities SecureABE.Audit
  SecureABE.Storage

variable {F G₁ G₂ Gₜ : Type} [Field F] [DecidableEq F] [AddCommGroup G₁] [Module F G₁]
  [AddCommGroup G₂] [Module F G₂] [AddCommGroup Gₜ] [Module F Gₜ]
variable (C : Curve F G₁ G₂ Gₜ) (D : Codec) (data : Path)

/-- The accesses of a load that looks for its file first. -/
def loadAccesses (p : Path) (d : Disk) : ℕ := if d.has p = true then 2 else 1

/-- The number of accesses of `cmd_issue` before the read of the key on file: the setup, the authorities,
the revocation list, its text, and the list once more. -/
def keyRead (d : Disk) : ℕ :=
  1 + loadAccesses (authoritiesPath data) d + loadAccesses (revocationPath data) d + 1 +
    loadAccesses (revocationPath data) d

/-- What a command leaves, with the access after `n` others failing, keeps the key on file: the new key has
the attributes of the old one, and if the old one could not be read then the command fails and leaves it. -/
structure KeepsKey (user : String) (n : ℕ) (d : Disk) (usk : UserSecretKey G₂) (o : Outcome String Unit)
    (d' : Disk) : Prop where
  grows : ∃ usk' : UserSecretKey G₂, userKeyOn C D data user d' = .ok usk' ∧
    ∀ a ∈ usk.attributes, a ∈ usk'.attributes
  refuses : n = keyRead data d → (∃ e, o = .error e) ∧
    d'.files.lookup (keyFile data user) = d.files.lookup (keyFile data user)

/-- The parameters, if they can be loaded, are those that `save_setup` has written. -/
def SetupSaved (F G₁ G₂ Gₜ : Type) [Field F] [AddCommGroup G₁] [Module F G₁] [AddCommGroup G₂]
    [Module F G₂] [AddCommGroup Gₜ] [Module F Gₜ] (C : Curve F G₁ G₂ Gₜ) (D : Codec) (data : Path)
    (d : Disk) : Prop :=
  ∀ pp msk, setupOn C D data d = .ok (pp, msk) →
    ∃ (pp' : PublicParams G₁ G₂ Gₜ) (msk' : MasterSecret F),
      d.files.lookup (setupPath data) = some (setupBytes C D pp' msk')

/-! ## Up to the read of the key -/

/-- `cmd_issue` up to its read of the key on file. -/
def beforeKey (args : IssueArgs) (fresh : Fresh F) :
    FileCmd String (MasterSecret F × Granting F G₁ G₂ Gₜ) := do
  let (pp, msk) ← loadSetup C D data
  let registry ← loadRegistry D data
  let revocation ← loadRevocation D data
  let _ ← Cmd.attempt (Fs.readToString (revocationPath data))
  let revCheck ← loadRevocation D data
  if revCheck.isUserRevoked args.user = true then
    Cmd.ofOutcome (Outcome.err (revokedMessage args.user))
  else do
    let claims ← Cmd.ofOutcome (parseClaims args.flags args.texts args.numerics)
    let st ← Cmd.ofOutcome (grantClaims registry revocation args.authority claims
      { pp, flatAttrs := [], rng := fresh.scalars })
    pure (msk, st)

theorem prepareIssue_eq (args : IssueArgs) (fresh : Fresh F) :
    prepareIssue C D data args fresh = (do
      let (msk, st) ← beforeKey C D data args fresh
      let existing ← Cmd.attempt (loadUserKey C D data args.user)
      Cmd.ofOutcome (mintKey msk args.user st existing)) := by
  unfold prepareIssue beforeKey
  simp only [bind_assoc]
  refine congrArg (loadSetup C D data >>= ·) (funext fun setup => ?_)
  refine congrArg (loadRegistry D data >>= ·) (funext fun registry => ?_)
  refine congrArg (loadRevocation D data >>= ·) (funext fun revocation => ?_)
  refine congrArg (Cmd.attempt (Fs.readToString (revocationPath data)) >>= ·) (funext fun hint => ?_)
  refine congrArg (loadRevocation D data >>= ·) (funext fun revCheck => ?_)
  split_ifs
  · rfl
  · simp only [bind_assoc, pure_bind]

/-- The outcome of `cmd_issue` up to its read of the key on file. -/
def grantedOutcome (args : IssueArgs) (fresh : Fresh F) (d : Disk) :
    Outcome String (MasterSecret F × Granting F G₁ G₂ Gₜ) := do
  let (pp, msk) ← setupOn C D data d
  let registry ← registryOn D data d
  let revocation ← revocationOn D data d
  if revocation.isUserRevoked args.user = true then Outcome.err (revokedMessage args.user)
  else do
    let claims ← parseClaims args.flags args.texts args.numerics
    let st ← grantClaims registry revocation args.authority claims
      { pp, flatAttrs := [], rng := fresh.scalars }
    .ok (msk, st)

omit [DecidableEq F] in
theorem reads_beforeKey (args : IssueArgs) (fresh : Fresh F) (d : Disk) :
    Fs.Reads (beforeKey C D data args fresh) d (grantedOutcome C D data args fresh d) := by
  apply (reads_loadSetup C D data d).bind
  rintro ⟨pp, msk⟩
  apply (reads_loadRegistry D data d).bind
  intro registry
  have hrev := reads_loadRevocation D data d
  cases h : revocationOn D data d with
  | error e =>
    rw [h] at hrev
    exact hrev.bind_error
  | ok revocation =>
    rw [h] at hrev
    obtain ⟨hint, hhint⟩ := Fs.exists_caught_textOf (ε := String) (d.read (revocationPath data))
    have hread : Fs.Reads (Cmd.attempt (Fs.readToString (revocationPath data)) : FileCmd String _) d
        (.ok hint) := hhint ▸ (Fs.reads_readToString _ d).attempt
    refine hrev.bind_ok (hread.bind_ok (hrev.bind_ok (Fs.Reads.ite (Fs.reads_ofOutcome _ d) ?_)))
    exact (Fs.reads_ofOutcome _ d).bind fun claims => (Fs.reads_ofOutcome _ d).bind fun st =>
      Fs.reads_pure _ d

variable {C D data}

omit [DecidableEq F] in
/-- The command gets to the key on file exactly if issuing is permitted. -/
theorem grantedOutcome_eq_ok {args : IssueArgs} {fresh : Fresh F} {d : Disk} {usk : UserSecretKey G₂}
    (hkey : userKeyOn C D data args.user d = .ok usk) {msk : MasterSecret F}
    {st : Granting F G₁ G₂ Gₜ} : grantedOutcome C D data args fresh d = .ok (msk, st) ↔
      ∃ input, Admits C D data args d input ∧ msk = input.msk ∧ st = input.granted fresh := by
  constructor
  · intro h
    obtain ⟨⟨pp, msk'⟩, hsetup, h⟩ := bind_eq_ok.1 h
    obtain ⟨registry, hregistry, h⟩ := bind_eq_ok.1 h
    obtain ⟨revocation, hrevocation, h⟩ := bind_eq_ok.1 h
    split_ifs at h with hrevoked
    · cases h
    obtain ⟨claims, hclaims, h⟩ := bind_eq_ok.1 h
    obtain ⟨st', hgrant, hret⟩ := bind_eq_ok.1 h
    obtain ⟨rfl, rfl⟩ := Prod.mk.inj (Except.ok.inj hret)
    obtain ⟨hpermitted, hst⟩ := grantClaims_eq_ok.1 hgrant
    exact ⟨⟨pp, msk', registry, revocation, claims, .ok usk⟩, ⟨hsetup, hregistry, hrevocation,
      by simpa using hrevoked, hclaims, hpermitted, congrArg Cmd.caught hkey⟩, rfl, hst.symm⟩
  · rintro ⟨input, h, rfl, rfl⟩
    have hgrant := grantClaims_eq_ok.2 ⟨h.permitted, (rfl : _ = input.granted fresh)⟩
    rw [grantedOutcome, h.setup, h.registry, h.revocation]
    simp only [ok_bind]
    rw [if_neg (by simp [h.notRevoked]), h.claims, ok_bind, hgrant, ok_bind]

/-! ## Counting the accesses -/

omit [DecidableEq F] in
theorem accesses_loadSetup (d : Disk) : Fs.accesses (loadSetup C D data) d = 1 := by
  rw [loadSetup, Fs.accesses_bind_eq (fun _ _ => Fs.accesses_ofOutcome _ _), Fs.accesses_mapErr,
    Fs.accesses_readToString]

theorem accesses_loadRegistry (d : Disk) :
    Fs.accesses (loadRegistry D data) d = loadAccesses (authoritiesPath data) d := by
  rw [loadRegistry, Fs.accesses_bind_ok (Fs.exec_exist _ d), Fs.accesses_exist, loadAccesses]
  cases d.has (authoritiesPath data) with
  | false => rfl
  | true =>
    rw [if_neg (by simp), if_pos rfl, Fs.accesses_bind_eq (fun _ _ => Fs.accesses_ofOutcome _ _),
      Fs.accesses_mapErr, Fs.accesses_readToString]

theorem accesses_loadRevocation (d : Disk) :
    Fs.accesses (loadRevocation D data) d = loadAccesses (revocationPath data) d := by
  rw [loadRevocation, Fs.accesses_mapErr, RevocationList.open,
    Fs.accesses_bind_eq (fun _ _ => Fs.accesses_pure _ _), RevocationState.load,
    Fs.accesses_bind_ok (Fs.exec_exist _ d), Fs.accesses_exist, loadAccesses]
  cases d.has (revocationPath data) with
  | false => rfl
  | true =>
    rw [if_pos rfl, if_pos rfl, Fs.accesses_bind_eq (fun _ _ => Fs.accesses_ofOutcome _ _),
      Fs.accesses_mapErr, Fs.accesses_readToString]

omit [DecidableEq F] in
theorem accesses_beforeKey_le (args : IssueArgs) (fresh : Fresh F) (d : Disk) :
    Fs.accesses (beforeKey C D data args fresh) d ≤ keyRead data d := by
  have hhint : Fs.Reads (Cmd.attempt (Fs.readToString (revocationPath data)) : FileCmd String _) d _ :=
    (Fs.reads_readToString (revocationPath data) d).attempt
  rw [show keyRead data d = 1 + (loadAccesses (authoritiesPath data) d +
    (loadAccesses (revocationPath data) d + (1 + (loadAccesses (revocationPath data) d + 0)))) by
      rw [keyRead]; omega]
  apply (reads_loadSetup C D data d).accesses_bind_le (accesses_loadSetup d).le
  rintro ⟨pp, msk⟩
  apply (reads_loadRegistry D data d).accesses_bind_le (accesses_loadRegistry d).le
  intro registry
  refine (reads_loadRevocation D data d).accesses_bind_le (accesses_loadRevocation d).le
    fun revocation => ?_
  apply hhint.accesses_bind_le (Fs.accesses_attempt _ d).le
  intro hint
  refine (reads_loadRevocation D data d).accesses_bind_le (accesses_loadRevocation d).le
    fun revCheck => ?_
  split_ifs
  · exact le_rfl
  · exact (Fs.accesses_bind_eq (fun _ d => Fs.accesses_bind_eq (fun _ _ => rfl) d) d).le

omit [DecidableEq F] in
/-- A command that is permitted makes all of them. -/
theorem accesses_beforeKey {args : IssueArgs} {fresh : Fresh F} {d : Disk}
    {input : IssueInput G₁ G₂ Gₜ F} (h : Admits C D data args d input) :
    Fs.accesses (beforeKey C D data args fresh) d = keyRead data d := by
  have hsetup : Fs.Reads (loadSetup C D data) d (.ok (input.pp, input.msk)) :=
    h.setup ▸ reads_loadSetup C D data d
  have hregistry : Fs.Reads (loadRegistry D data) d (.ok input.registry) :=
    h.registry ▸ reads_loadRegistry D data d
  have hlist : Fs.Reads (loadRevocation D data) d (.ok input.revocation) :=
    h.revocation ▸ reads_loadRevocation D data d
  obtain ⟨hint, hhint⟩ := Fs.exists_caught_textOf (ε := String) (d.read (revocationPath data))
  have hread : Fs.Reads (Cmd.attempt (Fs.readToString (revocationPath data)) : FileCmd String _) d
      (.ok hint) := hhint ▸ (Fs.reads_readToString _ d).attempt
  have hgrant := grantClaims_eq_ok.2 ⟨h.permitted, (rfl : _ = input.granted fresh)⟩
  rw [beforeKey, Fs.accesses_bind_ok hsetup, accesses_loadSetup, Fs.accesses_bind_ok hregistry,
    accesses_loadRegistry, Fs.accesses_bind_ok hlist, accesses_loadRevocation,
    Fs.accesses_bind_ok hread, Fs.accesses_attempt, Fs.accesses_readToString,
    Fs.accesses_bind_ok hlist, accesses_loadRevocation, if_neg (by simp [h.notRevoked]), h.claims,
    Fs.accesses_bind_ok (Fs.exec_ofOutcome _ d), hgrant, Fs.accesses_bind_ok (Fs.exec_ofOutcome _ d)]
  simp only [Fs.accesses_ofOutcome, Fs.accesses_pure, keyRead]
  omega

/-! ## The read of the key -/

section Reading

variable {user : String} {d : Disk} {usk : UserSecretKey G₂}

omit [DecidableEq F] in
theorem execFlaky_loadUserKey_of_none (hkey : userKeyOn C D data user d = .ok usk)
    {φs : List (Option Fault)} (h : φs.head?.join = none) :
    Fs.execFlaky (Cmd.attempt (loadUserKey C D data user) : FileCmd String _) (d, φs) =
      (.ok (.ok usk), (d, φs.tail)) := by
  obtain ⟨s, htext, hdecode⟩ := bind_eq_ok.1 hkey
  rw [Fs.execFlaky_attempt, loadUserKey, Fs.execFlaky_bind, Fs.execFlaky_mapErr,
    Fs.execFlaky_readToString_of_none h, htext, Cmd.andThen_ok, Fs.execFlaky_ofOutcome, hdecode]
  rfl

variable (C D data user d) in
omit [DecidableEq F] in
/-- A key that cannot be read is taken for one that is not there. -/
theorem execFlaky_loadUserKey_of_some {φs : List (Option Fault)} {φ : Fault}
    (h : φs.head?.join = some φ) : ∃ msg : String,
    Fs.execFlaky (Cmd.attempt (loadUserKey C D data user) : FileCmd String _) (d, φs) =
      (.ok (.error msg), (d, φs.tail)) := by
  refine ⟨"no key on file for user '" ++ user ++ "'; run `issue` first", ?_⟩
  rw [Fs.execFlaky_attempt, loadUserKey, Fs.execFlaky_bind, Fs.execFlaky_mapErr,
    Fs.execFlaky_readToString_of_some h]
  rfl

omit [DecidableEq F] in
/-- A key file that holds a key is not the file of parameters that were saved. -/
theorem keyFile_ne_setupPath (hD : D.ReadsShallow) (hkey : userKeyOn C D data user d = .ok usk)
    {pp : PublicParams G₁ G₂ Gₜ} {msk : MasterSecret F}
    (hsetup : d.files.lookup (setupPath data) = some (setupBytes C D pp msk)) :
    keyFile data user ≠ setupPath data := by
  intro heq
  have hwritten : HoldsKey C D (keyFile data user)
      (Disk.write ⟨∅, []⟩ (setupPath data) (setupBytes C D pp msk)) usk := by
    apply (userKeyOn_eq_ok.1 hkey).congr
    rw [heq, hsetup, Disk.lookup_write_self]
  obtain ⟨s, hs, -⟩ := hwritten.of_write_setup hD
  cases hs

end Reading

/-! ## The command -/

section Issuing

variable {args : IssueArgs} {fresh : Fresh F} {d : Disk} {usk : UserSecretKey G₂} {n : ℕ} {φ : Fault}

omit [DecidableEq F] in
/-- A command that fails and changes nothing keeps the key. -/
theorem keepsKey_of_error (hkey : userKeyOn C D data args.user d = .ok usk) (e : Failure String) :
    KeepsKey C D data args.user n d usk (.error e) d :=
  ⟨⟨usk, hkey, fun _ ha => ha⟩, fun _ => ⟨⟨e, rfl⟩, rfl⟩⟩

variable (C D data args) in
omit [DecidableEq F] in
/-- What comes after the preparation writes the key file once, if it is not that of the parameters. -/
theorem only_saves (key : Issued F G₁ G₂ Gₜ) (event : AuditEvent)
    (hne : keyFile data args.user ≠ setupPath data) :
    Cmd.Only (fun op => op.Spares (keyFile data args.user) ∨
        op = .write (keyFile data args.user) (userKeyBytes C D key.usk)) (do
      saveSetup C D data key.pp key.msk
      saveUserKey C D data args.user key.usk
      recordEvent D data event) fun _ => True := by
  have haudit : keyFile data args.user ≠ auditPath data := keyFile_ne_auditPath args.user
  apply ((Fs.single_write _ _).mapErr.only (Or.inl (FileOp.spares_write hne _))).bind
  intro _ _
  have hkey : Cmd.Only (fun op => op.Spares (keyFile data args.user) ∨
      op = .write (keyFile data args.user) (userKeyBytes C D key.usk))
      (saveUserKey C D data args.user key.usk) fun _ => True :=
    ((Fs.single_createDirAll _).mapErr.only (Or.inl FileOp.spares_createDirAll)).bind fun _ _ =>
      (Fs.single_write _ _).mapErr.only (Or.inr rfl)
  refine hkey.bind fun _ _ => Cmd.Only.mapErr ?_
  refine ((Fs.single_openAppend _).mapErr.only (Or.inl (FileOp.spares_openAppend haudit))).bind
    fun _ _ => ?_
  apply ((Fs.single_append _ _).mapErr.only (Or.inl (FileOp.spares_append haudit _))).bind
  intro _ _
  exact (Fs.single_append _ _).mapErr.only (Or.inl (FileOp.spares_append haudit _))

theorem execFlaky_cmdIssue_of_error {s s' : Disk × List (Option Fault)} {e : Failure String}
    (h : Fs.execFlaky (beforeKey C D data args fresh) s = (.error e, s')) :
    Fs.execFlaky (cmdIssue C D data args fresh) s = (.error e, s') := by
  rw [cmdIssue, prepareIssue_eq, Fs.execFlaky_bind, Fs.execFlaky_bind, h, Cmd.andThen_error,
    Cmd.andThen_error]

/-- The command after its read of the key. -/
theorem execFlaky_cmdIssue_of_ok {s s₁ s₂ : Disk × List (Option Fault)} {msk : MasterSecret F}
    {st : Granting F G₁ G₂ Gₜ} {existing : Except String (UserSecretKey G₂)}
    (h : Fs.execFlaky (beforeKey C D data args fresh) s = (.ok (msk, st), s₁))
    (hread : Fs.execFlaky (Cmd.attempt (loadUserKey C D data args.user) : FileCmd String _) s₁ =
      (.ok existing, s₂)) :
    Fs.execFlaky (cmdIssue C D data args fresh) s =
      Cmd.andThen (mintKey msk args.user st existing, s₂) fun key s => Fs.execFlaky (do
        saveSetup C D data key.pp key.msk
        saveUserKey C D data args.user key.usk
        recordEvent D data (issueEvent args fresh key.flatAttrs)) s := by
  rw [cmdIssue, prepareIssue_eq, Fs.execFlaky_bind, Fs.execFlaky_bind, h, Cmd.andThen_ok,
    Fs.execFlaky_bind, hread, Cmd.andThen_ok]
  rfl

variable (C D data args fresh d) in
omit [DecidableEq F] in
theorem peeks_beforeKey : Fs.Peeks (beforeKey C D data args fresh) d fun r =>
    ∃ pp, setupOn C D data d = .ok (pp, r.1) := by
  apply (peeks_loadSetup C D data d).bind
  rintro ⟨pp, msk⟩ hsetup
  apply ((onlyReads_loadRegistry D data).peeks d).bind
  intro registry _
  apply ((onlyReads_loadRevocation D data).peeks d).bind
  intro revocation _
  apply ((Fs.onlyReads_readToString _).peeks d).attempt.bind
  intro hint _
  apply ((onlyReads_loadRevocation D data).peeks d).bind
  intro revCheck _
  apply Fs.Peeks.ite (fun _ => Fs.peeks_ofOutcome fun r hr => (by cases hr))
  intro _
  apply (Fs.peeks_ofOutcome (P := fun _ => True) fun _ _ => trivial).bind
  intro claims _
  apply (Fs.peeks_ofOutcome (P := fun _ => True) fun _ _ => trivial).bind
  intro st _
  exact Fs.peeks_pure ⟨pp, hsetup⟩

variable (hC : C.ReadsBack) (hX : D.HexReadsBack) (hD : D.ReadsShallow)
include hC hX hD

/-- A command that reads the key on file keeps it, whatever it fails to do afterwards. -/
theorem keepsKey_of_read (hsaved : SetupSaved F G₁ G₂ Gₜ C D data d)
    (hkey : userKeyOn C D data args.user d = .ok usk) (hn : n ≠ keyRead data d)
    {s s' : Disk × List (Option Fault)} {φs : List (Option Fault)} (hφs : φs.head?.join = none)
    {r : Outcome String (MasterSecret F × Granting F G₁ G₂ Gₜ)} {o : Outcome String Unit}
    (hs : s.1 = d) (hbefore : Fs.execFlaky (beforeKey C D data args fresh) s = (r, (d, φs)))
    (h : Fs.execFlaky (cmdIssue C D data args fresh) s = (o, s')) :
    KeepsKey C D data args.user n d usk o s'.1 := by
  rcases r with e | ⟨msk, st⟩
  · rw [execFlaky_cmdIssue_of_error hbefore] at h
    obtain ⟨rfl, rfl⟩ := Prod.mk.inj h
    exact keepsKey_of_error hkey e
  rw [execFlaky_cmdIssue_of_ok hbefore (execFlaky_loadUserKey_of_none hkey hφs)] at h
  cases hmint : mintKey msk args.user st (.ok usk) with
  | error e =>
    rw [hmint, Cmd.andThen_error] at h
    obtain ⟨rfl, rfl⟩ := Prod.mk.inj h
    exact keepsKey_of_error hkey e
  | ok key =>
    rw [hmint, Cmd.andThen_ok] at h
    obtain ⟨-, -, -, hflat, -, r, hminted⟩ := mintKey_eq_ok hmint
    obtain ⟨d₀, φs₀⟩ := s
    obtain rfl : d₀ = d := hs
    obtain ⟨pp, hsetup⟩ := ((peeks_beforeKey C D data args fresh d₀).of_execFlaky hbefore).2 _ rfl
    obtain ⟨pp', msk', hfile⟩ := hsaved pp msk hsetup
    have hne := keyFile_ne_setupPath hD hkey hfile
    have hlookup := Fs.lookup_execFlaky_of_write
      (only_saves C D data args key (issueEvent args fresh key.flatAttrs) hne) (d₀, φs.tail)
    rw [h] at hlookup
    refine ⟨?_, fun heq => absurd heq hn⟩
    rcases hlookup with hold | hnew
    · exact ⟨usk, userKeyOn_eq_ok.2 ((userKeyOn_eq_ok.1 hkey).congr hold.symm), fun _ ha => ha⟩
    · refine ⟨key.usk, userKeyOn_of_lookup hC hX hD hnew, fun a ha => ?_⟩
      rw [hminted.mem, hflat, mem_mergeExisting]
      exact Or.inr ⟨usk, rfl, ha⟩

omit hC hX hD in
/-- A permitted command that cannot read the key goes on without it. -/
theorem execFlaky_cmdIssue_unread {input : IssueInput G₁ G₂ Gₜ F} (hadmits : Admits C D data args d input)
    (hkey : userKeyOn C D data args.user d = .ok usk) (fresh : Fresh F) (φ : Fault) : ∃ msg,
    Fs.execFlaky (cmdIssue C D data args fresh) (d, faultAt (keyRead data d) φ) =
      Cmd.andThen (mintKey input.msk args.user (input.granted fresh) (.error msg), (d, [])) fun key s =>
        Fs.execFlaky (do
          saveSetup C D data key.pp key.msk
          saveUserKey C D data args.user key.usk
          recordEvent D data (issueEvent args fresh key.flatAttrs)) s := by
  have hbefore : Fs.execFlaky (beforeKey C D data args fresh) (d, faultAt (keyRead data d) φ) =
      (.ok (input.msk, input.granted fresh), (d, faultAt 0 φ)) := by
    rw [Fs.execFlaky_faultAt (accesses_beforeKey hadmits).le, accesses_beforeKey hadmits,
      reads_beforeKey, (grantedOutcome_eq_ok hkey).2 ⟨input, hadmits, rfl, rfl⟩, Nat.sub_self]
  obtain ⟨msg, hunread⟩ := execFlaky_loadUserKey_of_some C D data args.user d
    (show (faultAt 0 φ).head?.join = some φ from rfl)
  exact ⟨msg, execFlaky_cmdIssue_of_ok hbefore hunread⟩

omit hC hX hD in
/-- **A permitted command that cannot read the key** replaces it, by a key with the attributes of the new
claims alone. -/
theorem replaced_of_unread {input : IssueInput G₁ G₂ Gₜ F} (hadmits : Admits C D data args d input)
    (hkey : userKeyOn C D data args.user d = .ok usk) (hbeta : input.msk.beta ≠ 0) (fresh : Fresh F)
    (φ : Fault) : ∃ key r, Fs.execFlaky (cmdIssue C D data args fresh)
        (d, faultAt (keyRead data d) φ) = (.ok (), (afterIssue C D data args fresh key d, [])) ∧
      Minted key.pp key.msk ((resolved input.claims).map input.revocation.tag) r key.usk := by
  obtain ⟨msg, hrun⟩ := execFlaky_cmdIssue_unread hadmits hkey fresh φ
  obtain ⟨hgranted, calls, hcalls, hreg⟩ := exists_registerAll_foldl_add input.revocation
    (resolved input.claims) { pp := input.pp, flatAttrs := [], rng := fresh.scalars }
  have hflatAttrs : mergeExisting (input.granted fresh).flatAttrs
      (.error msg : Except String (UserSecretKey G₂)) =
        (resolved input.claims).map input.revocation.tag := by
    unfold mergeExisting IssueInput.granted
    rw [hgranted, List.nil_append]
  have hnames : ∀ a ∈ mergeExisting (input.granted fresh).flatAttrs
      (.error msg : Except String (UserSecretKey G₂)), a ∈ (input.granted fresh).pp.attributes := by
    intro a ha
    rw [hflatAttrs] at ha
    rw [IssueInput.granted, hreg, mem_registerAll, hcalls]
    exact Or.inl ha
  obtain ⟨key, hmint⟩ := exists_mintKey hbeta args.user hnames
  obtain ⟨-, hpp, hmsk, hflat, -, r, hminted⟩ := mintKey_eq_ok hmint
  rw [hflat, hflatAttrs, ← hpp, ← hmsk] at hminted
  refine ⟨key, r, ?_, hminted⟩
  rw [hrun, hmint, Cmd.andThen_ok]
  apply (Fs.execFlaky_nil _ d).trans
  simp only [Fs.exec_bind, exec_saveSetup, exec_saveUserKey, Cmd.andThen_ok, exec_recordEvent]
  rfl

/-- **Issuing keeps the key on file** when one access fails, exactly if this is not the read of the key by
a command that is permitted. -/
theorem keepsKey_iff (hsaved : SetupSaved F G₁ G₂ Gₜ C D data d)
    (hkey : userKeyOn C D data args.user d = .ok usk) {o : Outcome String Unit}
    {s' : Disk × List (Option Fault)}
    (h : Fs.execFlaky (cmdIssue C D data args fresh) (d, faultAt n φ) = (o, s')) :
    KeepsKey C D data args.user n d usk o s'.1 ↔
      ¬ (n = keyRead data d ∧
        ∃ input : IssueInput G₁ G₂ Gₜ F, Admits C D data args d input ∧ input.msk.beta ≠ 0) := by
  rcases Nat.lt_or_ge n (Fs.accesses (beforeKey C D data args fresh) d) with hlt | hle
  · -- the failing access comes before the read of the key
    have hn : n < keyRead data d := hlt.trans_le (accesses_beforeKey_le args fresh d)
    rcases hbefore : Fs.execFlaky (beforeKey C D data args fresh) (d, faultAt n φ) with ⟨r, d₁, φs⟩
    have hdisk := ((peeks_beforeKey C D data args fresh d).of_execFlaky hbefore).1
    obtain rfl : d₁ = d := hdisk
    have hnone : φs = [] := by
      have hleft := Fs.faults_execFlaky_faultAt hlt φ
      rwa [hbefore] at hleft
    refine iff_of_true ?_ fun hbad => absurd hbad.1 hn.ne
    exact keepsKey_of_read hC hX hD hsaved hkey hn.ne (by rw [hnone]; rfl) rfl hbefore h
  have hbefore : Fs.execFlaky (beforeKey C D data args fresh) (d, faultAt n φ) =
      (grantedOutcome C D data args fresh d,
        (d, faultAt (n - Fs.accesses (beforeKey C D data args fresh) d) φ)) := by
    rw [Fs.execFlaky_faultAt hle, reads_beforeKey]
  cases hgranted : grantedOutcome C D data args fresh d with
  | error e =>
    -- the command is refused
    rw [hgranted] at hbefore
    rw [execFlaky_cmdIssue_of_error hbefore] at h
    obtain ⟨rfl, rfl⟩ := Prod.mk.inj h
    apply iff_of_true (keepsKey_of_error hkey e)
    rintro ⟨-, input, hadmits, -⟩
    rw [(grantedOutcome_eq_ok hkey).2 ⟨input, hadmits, rfl, rfl⟩] at hgranted
    cases hgranted
  | ok granted =>
    have hpair : grantedOutcome C D data args fresh d = .ok (granted.1, granted.2) := hgranted
    obtain ⟨input, hadmits, hmsk, -⟩ := (grantedOutcome_eq_ok hkey).1 hpair
    rw [accesses_beforeKey hadmits] at hle hbefore
    rcases Nat.eq_or_lt_of_le hle with rfl | hlt
    · by_cases hbeta : input.msk.beta = 0
      · -- no key can be made
        obtain ⟨msg, hrun⟩ := execFlaky_cmdIssue_unread hadmits hkey fresh φ
        cases hmint : mintKey input.msk args.user (input.granted fresh)
            (.error msg : Except String (UserSecretKey G₂)) with
        | ok key => exact absurd hbeta (mintKey_eq_ok hmint).1
        | error e =>
          rw [hrun, hmint, Cmd.andThen_error] at h
          obtain ⟨rfl, rfl⟩ := Prod.mk.inj h
          apply iff_of_true (keepsKey_of_error hkey e)
          rintro ⟨-, input', hadmits', hbeta'⟩
          have hsetup := hadmits'.setup.symm.trans hadmits.setup
          rw [(Prod.mk.inj (Except.ok.inj hsetup)).2] at hbeta'
          exact hbeta' hbeta
      · obtain ⟨key, r, hrun, -⟩ := replaced_of_unread hadmits hkey hbeta fresh φ
        rw [hrun] at h
        obtain ⟨rfl, rfl⟩ := Prod.mk.inj h
        refine iff_of_false (fun hkeeps => ?_) fun hgood => hgood ⟨rfl, input, hadmits, hbeta⟩
        obtain ⟨⟨e, he⟩, -⟩ := hkeeps.refuses rfl
        cases he
    · -- the failing access comes after it
      refine iff_of_true ?_ fun hbad => absurd hbad.1 hlt.ne'
      exact keepsKey_of_read hC hX hD hsaved hkey hlt.ne' (Fs.head_faultAt (by omega) φ) rfl hbefore h

end Issuing

/-! ## An example -/

/-- A device error. -/
def exampleFault : Fault := ⟨.other "Input/output error (os error 5)", 0⟩

theorem keepsKey_iff_exampleRun : ∃ (usk : UserSecretKey Scalar) (o : Outcome String Unit)
    (s' : Disk × List (Option Fault)),
    Fs.execFlaky (cmdIssue exponents serdeJsonUnlimited exampleData (issueToAlice "b") exampleFresh)
      (runAll exponents boxes serdeJsonUnlimited exampleCwd exampleData exampleRun emptyDisk,
        faultAt 2 exampleFault) = (o, s') ∧
    (KeepsKey exponents serdeJsonUnlimited exampleData "alice" 2
        (runAll exponents boxes serdeJsonUnlimited exampleCwd exampleData exampleRun emptyDisk) usk o s'.1 ↔
      ¬ (2 = keyRead exampleData
          (runAll exponents boxes serdeJsonUnlimited exampleCwd exampleData exampleRun emptyDisk) ∧
        ∃ input : IssueInput Scalar Scalar Scalar Scalar, Admits exponents serdeJsonUnlimited exampleData
          (issueToAlice "b")
          (runAll exponents boxes serdeJsonUnlimited exampleCwd exampleData exampleRun emptyDisk) input ∧
            input.msk.beta ≠ 0)) := by
  obtain ⟨w, usk, h, hkey, -⟩ := exists_key_exampleRun
  generalize runAll exponents boxes serdeJsonUnlimited exampleCwd exampleData exampleRun emptyDisk = d
    at h hkey ⊢
  have hsaved : SetupSaved Scalar Scalar Scalar Scalar exponents serdeJsonUnlimited exampleData d :=
    fun _ _ _ => ⟨w.pp, w.msk, by rw [setupPath_eq]; exact congrFun h.view .setup⟩
  obtain ⟨o, s', hrun⟩ : ∃ o s', Fs.execFlaky (cmdIssue exponents serdeJsonUnlimited exampleData
      (issueToAlice "b") exampleFresh) (d, faultAt 2 exampleFault) = (o, s') :=
    ⟨_, _, Prod.mk.eta.symm⟩
  have hkey' : userKeyOn exponents serdeJsonUnlimited exampleData (issueToAlice "b").user d = .ok usk := hkey
  exact ⟨usk, o, s', hrun, keepsKey_iff readsBack_exponents hexReadsBack_serdeJsonUnlimited
    readsBack_serdeJsonUnlimited.shallow hsaved hkey' hrun⟩

/-- Alice has a key for `a`, and a second attribute is issued to her while her key cannot be read: the
command succeeds, and she has lost the first. -/
theorem not_keepsKey_exampleRun : ∃ (usk usk' : UserSecretKey Scalar) (s' : Disk × List (Option Fault)),
    userKeyOn exponents serdeJsonUnlimited exampleData "alice"
      (runAll exponents boxes serdeJsonUnlimited exampleCwd exampleData exampleRun emptyDisk) = .ok usk ∧
    "a@epoch0" ∈ usk.attributes ∧
    Fs.execFlaky (cmdIssue exponents serdeJsonUnlimited exampleData (issueToAlice "b") exampleFresh)
      (runAll exponents boxes serdeJsonUnlimited exampleCwd exampleData exampleRun emptyDisk,
        faultAt (keyRead exampleData
          (runAll exponents boxes serdeJsonUnlimited exampleCwd exampleData exampleRun emptyDisk))
          exampleFault) = (.ok (), s') ∧
    userKeyOn exponents serdeJsonUnlimited exampleData "alice" s'.1 = .ok usk' ∧
    "a@epoch0" ∉ usk'.attributes ∧
    ¬ KeepsKey exponents serdeJsonUnlimited exampleData "alice"
      (keyRead exampleData
        (runAll exponents boxes serdeJsonUnlimited exampleCwd exampleData exampleRun emptyDisk))
      (runAll exponents boxes serdeJsonUnlimited exampleCwd exampleData exampleRun emptyDisk) usk (.ok ())
      s'.1 := by
  obtain ⟨w, usk, h, hkey, ha, hbeta, hregistry, hrevocation⟩ := exists_key_exampleRun
  generalize runAll exponents boxes serdeJsonUnlimited exampleCwd exampleData exampleRun emptyDisk = d
    at h hkey ⊢
  have hC := readsBack_exponents
  have hX := hexReadsBack_serdeJsonUnlimited
  have hD := readsBack_serdeJsonUnlimited.shallow
  have hadmits : Admits exponents serdeJsonUnlimited exampleData (issueToAlice "b") d
      ⟨w.pp, w.msk, w.registry, w.revocationList exampleData, [.flag "b"], .ok usk⟩ := by
    refine ⟨h.setupOn_eq hC hX hD, h.registryOn_eq hD, h.revocationOn_eq hD, ?_, rfl, ?_,
      congrArg Cmd.caught hkey⟩
    · rw [World.revocationList, hrevocation]
      rfl
    · rw [hregistry]
      exact List.forall_mem_singleton.2 rfl
  obtain ⟨key, r, hrun, hminted⟩ := replaced_of_unread hadmits hkey hbeta exampleFresh exampleFault
  have hkey' : userKeyOn exponents serdeJsonUnlimited exampleData "alice"
      (afterIssue exponents serdeJsonUnlimited exampleData (issueToAlice "b") exampleFresh key d) =
        .ok key.usk := by
    apply userKeyOn_of_lookup hC hX hD
    rw [afterIssue, Disk.lookup_append_ne (keyFile_ne_auditPath "alice")]
    exact Disk.lookup_write_self _ _ _
  refine ⟨usk, key.usk, _, hkey, (ha _).2 rfl, hrun, hkey', ?_, fun hkeeps => ?_⟩
  · rw [hminted.mem, World.revocationList, hrevocation]
    change "a@epoch0" ∉ [RevocationList.tag ⟨revocationPath exampleData, default⟩ "b"]
    decide
  · obtain ⟨⟨e, he⟩, -⟩ := hkeeps.refuses rfl
    cases he

end SecureABE.Cli
