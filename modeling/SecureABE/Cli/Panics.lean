import SecureABE.Cli.Authorization
import SecureABE.Cli.Reports
import SecureABE.Core.Panics
import SecureABE.Foundations.Traces

/-!
# Panics of the commands

No command panics, whatever the files hold and whatever the device and other processes do in between,
with three exceptions (`performs_run_panic`): issuing does if the setup that it loads has a `beta` that is
zero, or for a numeric claim of more levels than a vector can hold, and decryption may if it loads a
package with a gate of more children than an index can count.

`Claim::resolve` collects its strings into a vector. Elsewhere they are a list, here they have to fit
(`Claim.collect`): `Command.runCollecting` is `Command.run` with this check (`runCollecting_eq_run`).
-/

namespace SecureABE.Cli

open Rust Rust.Cmd SecureABE.Core SecureABE.Policy SecureABE.Revocation SecureABE.Authorities
  SecureABE.Audit SecureABE.Envelope SecureABE.Storage

variable {F G₁ G₂ Gₜ : Type} [Field F] [DecidableEq F] [AddCommGroup G₁] [Module F G₁]
  [AddCommGroup G₂] [Module F G₂] [AddCommGroup Gₜ] [Module F Gₜ]
variable (C : Curve F G₁ G₂ Gₜ) (A : Cipher) (D : Codec) (cwd data : Path)

/-! ## Files -/

omit [DecidableEq F] in
theorem calm_loadSetup : Calm (loadSetup C D data) :=
  (Fs.calm_readToString _).mapErr.bind fun s => panicsIn_ofOutcome (calm_setupBundleFromJson C D s).mapErr

omit [DecidableEq F] in
theorem calm_saveSetup (pp : PublicParams G₁ G₂ Gₜ) (msk : MasterSecret F) :
    Calm (saveSetup C D data pp msk) := (Fs.calm_write _ _).mapErr

theorem calm_loadRegistry : Calm (loadRegistry D data) := by
  refine (Fs.calm_exist _).bind fun there => (calm_pure _).ite ?_
  exact (Fs.calm_readToString _).mapErr.bind fun s => panicsIn_ofOutcome (Outcome.calm_ofExcept _ _)

theorem calm_saveRegistry (reg : AuthorityRegistry) : Calm (saveRegistry D data reg) :=
  (Fs.calm_write _ _).mapErr

theorem calm_loadRevocation : Calm (loadRevocation D data) := by
  have hload : Calm (RevocationState.load D (revocationPath data)) := by
    refine (Fs.calm_exist _).bind fun there => PanicsIn.ite ?_ (calm_pure _)
    exact (Fs.calm_readToString _).mapErr.bind fun s => panicsIn_ofOutcome (Outcome.calm_ofExcept _ _)
  exact (hload.bind fun state => calm_pure _).mapErr

omit [DecidableEq F] in
theorem calm_loadUserKey (user : String) : Calm (loadUserKey C D data user) :=
  (Fs.calm_readToString _).mapErr.bind fun s => panicsIn_ofOutcome (calm_userKeyFromJson C D s).mapErr

omit [DecidableEq F] in
theorem calm_saveUserKey (user : String) (usk : UserSecretKey G₂) :
    Calm (saveUserKey C D data user usk) :=
  (Fs.calm_createDirAll _).mapErr.bind fun _ => (Fs.calm_write _ _).mapErr

theorem calm_recordEvent (event : AuditEvent) : Calm (recordEvent D data event) := by
  refine PanicsIn.mapErr ((Fs.calm_openAppend _).mapErr.bind fun _ => ?_)
  exact (Fs.calm_append _ _).mapErr.bind fun _ => (Fs.calm_append _ _).mapErr

theorem calm_open (root : Path) : Calm (PackageStore.open root) :=
  (Fs.calm_createDirAll _).mapErr.bind fun _ => calm_pure _

omit [DecidableEq F] in
theorem calm_put (store : PackageStore) (filename : String) (package : EncryptedPackage G₁)
    (stamp : Stamp) : Calm (store.put C D filename package stamp) := by
  refine (Fs.calm_createDirAll _).mapErr.bind fun _ => ?_
  refine (Fs.calm_write _ _).mapErr.bind fun _ => ?_
  refine (Fs.calm_write _ _).mapErr.bind fun _ => ?_
  exact (Fs.calm_write _ _).mapErr.bind fun _ => calm_pure _

omit [DecidableEq F] in
theorem calm_get (store : PackageStore) (id : String) : Calm (store.get C D id) := by
  refine (Fs.calm_exist _).bind fun there =>
    PanicsIn.ite (panicsIn_ofOutcome (Outcome.calm_err _)) ?_
  refine (Fs.calm_readToString _).mapErr.bind fun text => ?_
  refine (panicsIn_ofOutcome (Outcome.calm_ofExcept _ _)).bind fun sealedDoc => ?_
  refine (Fs.calm_readToString _).mapErr.bind fun text => ?_
  refine (panicsIn_ofOutcome (calm_ciphertextFromJson C D text).mapErr).bind fun keyCiphertext => ?_
  exact calm_pure _

theorem calm_list (store : PackageStore) : Calm (store.list D) := by
  have hentries : ∀ (entries : List Path) (out : List PackageSummary), Calm (listEntries D entries out) := by
    intro entries
    induction entries with
    | nil => exact fun out => calm_pure out
    | cons entry entries ih =>
      intro out
      refine (Fs.calm_exist _).bind fun there => (ih out).ite ?_
      refine (Fs.calm_readToString _).mapErr.bind fun text => ?_
      exact (panicsIn_ofOutcome (Outcome.calm_ofExcept _ _)).bind fun manifest => ih _
  refine (Fs.calm_exist _).bind fun there => (calm_pure _).ite ?_
  refine (Fs.calm_readDir _).mapErr.bind fun entries => ?_
  exact (hentries entries []).bind fun out => calm_pure _

theorem calm_readAll (log : AuditLog) : Calm (log.readAll D) := by
  have hlines : ∀ (lines : List Bytes) (events : List AuditEvent), (readLines D lines events).Calm := by
    intro lines
    induction lines with
    | nil => exact fun events => Outcome.calm_ok events
    | cons line lines ih =>
      intro events
      refine (Outcome.calm_okOr _ _).bind fun text _ => (ih events).ite ?_
      exact (Outcome.calm_ofExcept _ _).bind fun event _ => ih _
  refine (Fs.calm_exist _).bind fun there => (calm_pure _).ite ?_
  exact (Fs.calm_read _).mapErr.bind fun file => panicsIn_ofOutcome (hlines _ [])

/-! ## Requests -/

theorem calm_parseClaims (flags texts numerics : List String) : (parseClaims flags texts numerics).Calm := by
  have htext : ∀ t, (parseText t).Calm := fun t =>
    (Outcome.calm_okOr _ _).bind fun _ _ => Outcome.calm_ok _
  have hnumeric : ∀ n, (parseNumeric n).Calm := by
    intro n
    refine (Outcome.calm_okOr _ _).bind fun kv _ => ?_
    refine (Outcome.calm_okOr _ _).bind fun k _ => ?_
    refine (Outcome.calm_okOr _ _).bind fun value _ => ?_
    exact (Outcome.calm_okOr _ _).bind fun max _ => Outcome.calm_ok _
  refine (Outcome.PanicsIn.mapList fun t _ => htext t).bind fun texts _ => ?_
  exact (Outcome.PanicsIn.mapList fun n _ => hnumeric n).bind fun numerics _ => Outcome.calm_ok _

theorem calm_checkPermission (reg : AuthorityRegistry) (authority : String) (claim : Claim) :
    (reg.checkPermission authority claim).Calm := by
  refine (Outcome.calm_okOr _ _).bind fun a _ => (Outcome.calm_ok _).ite ?_
  exact (Outcome.calm_ok _).ite (Outcome.calm_err _)

/-- The strings of the claim fit a vector: all of them, of 24 bytes each, take at most `isize::MAX`
bytes. -/
def Claim.FitsVec (claim : Claim) : Prop := 24 * claim.resolve.length < 2 ^ 63

instance (claim : Claim) : Decidable (Claim.FitsVec claim) := inferInstanceAs (Decidable (_ < _))

/-- A numeric claim does not fit if it has too many levels, and the others do. -/
theorem fitsVec_iff {claim : Claim} : Claim.FitsVec claim ↔
    ∀ key value max, claim = .numeric key value max → min value max < 384307168202282326 := by
  cases claim with
  | flag s | text key value => simp [Claim.FitsVec, Claim.resolve]
  | numeric key value max =>
    simp only [Claim.FitsVec, Claim.resolve, List.length_map, List.length_range', Claim.numeric.injEq]
    constructor
    · rintro hfits _ _ _ ⟨rfl, rfl, rfl⟩
      omega
    · intro hlevels
      have hlt := hlevels key value max ⟨rfl, rfl, rfl⟩
      omega

/-- The strings of a claim as they are collected. -/
def Claim.collect (claim : Claim) : Outcome String (List String) :=
  if Claim.FitsVec claim then .ok claim.resolve else .error (.panic "capacity overflow")

/-- The loop over the claims, whose strings are collected. -/
def grantCollecting (registry : AuthorityRegistry) (revocation : RevocationList) (authority : String) :
    List Claim → Granting F G₁ G₂ Gₜ → Outcome String (Granting F G₁ G₂ Gₜ)
  | [], st => .ok st
  | claim :: claims, st => do
    Outcome.mapErr AuthorityError.toText (registry.checkPermission authority claim)
    let attrs ← Claim.collect claim
    grantCollecting registry revocation authority claims (attrs.foldl (Granting.add revocation) st)

omit [DecidableEq F] [AddCommGroup Gₜ] [Module F Gₜ] in
theorem grantCollecting_eq (registry : AuthorityRegistry) (revocation : RevocationList)
    (authority : String) {claims : List Claim} (hfits : ∀ claim ∈ claims, Claim.FitsVec claim)
    (st : Granting F G₁ G₂ Gₜ) : grantCollecting registry revocation authority claims st =
      grantClaims registry revocation authority claims st := by
  induction claims generalizing st with
  | nil => rfl
  | cons claim claims ih =>
    rw [grantCollecting, grantClaims, Claim.collect, if_pos (hfits claim List.mem_cons_self)]
    exact congrArg _ (funext fun _ => ih (fun c hc => hfits c (List.mem_cons_of_mem claim hc)) _)

omit [DecidableEq F] [AddCommGroup Gₜ] [Module F Gₜ] in
/-- A permitted claim that does not fit ends the loop. -/
theorem grantCollecting_of_not_fitsVec {registry : AuthorityRegistry} {authority : String} {claim : Claim}
    (hpermitted : registry.checkPermission authority claim = .ok ()) (hfits : ¬ Claim.FitsVec claim)
    (revocation : RevocationList) (claims : List Claim) (st : Granting F G₁ G₂ Gₜ) :
    grantCollecting registry revocation authority (claim :: claims) st =
      .error (.panic "capacity overflow") := by
  rw [grantCollecting, hpermitted, Claim.collect, if_neg hfits]
  rfl

omit [DecidableEq F] [AddCommGroup Gₜ] [Module F Gₜ] in
theorem panicsIn_grantCollecting (registry : AuthorityRegistry) (revocation : RevocationList)
    (authority : String) (claims : List Claim) (st : Granting F G₁ G₂ Gₜ) :
    (grantCollecting registry revocation authority claims st).PanicsIn
      fun msg => (∃ claim ∈ claims, ¬ Claim.FitsVec claim) ∧ msg = "capacity overflow" := by
  induction claims generalizing st with
  | nil => exact (Outcome.calm_ok st).panicsIn
  | cons claim claims ih =>
    have hcheck := (calm_checkPermission registry authority claim).mapErr (f := AuthorityError.toText)
    refine Outcome.PanicsIn.bind (Outcome.Calm.panicsIn hcheck) fun _ _ => ?_
    refine Outcome.PanicsIn.bind ?_ fun attrs _ => (ih _).mono fun msg hmsg => ?_
    · unfold Claim.collect
      split_ifs with hfits
      · exact (Outcome.calm_ok _).panicsIn
      · rintro msg ⟨⟩
        exact ⟨⟨claim, List.mem_cons_self, hfits⟩, rfl⟩
    · obtain ⟨⟨c, hc, hnot⟩, hmsg⟩ := hmsg
      exact ⟨⟨c, List.mem_cons_of_mem claim hc, hnot⟩, hmsg⟩

omit [AddCommGroup G₁] [Module F G₁] [AddCommGroup Gₜ] [Module F Gₜ] in
/-- A key is minted with a panic only if `beta` is zero. -/
theorem panicsIn_mintKey (msk : MasterSecret F) (user : String) (st : Granting F G₁ G₂ Gₜ)
    (existing : Except String (UserSecretKey G₂)) : (mintKey msk user st existing).PanicsIn
      fun msg => msk.beta = 0 ∧ msg = "beta is sampled nonzero w.o.p." := by
  refine Outcome.PanicsIn.bind (Outcome.PanicsIn.mapErr fun msg h => ?_) fun usk _ =>
    (Outcome.calm_ok _).panicsIn
  exact (keygen_eq_panic_iff.1 h).2

omit [AddCommGroup G₁] [Module F G₁] [AddCommGroup Gₜ] [Module F Gₜ] in
/-- With a `beta` that is zero it does panic, whoever asks. -/
theorem mintKey_of_beta_eq_zero {msk : MasterSecret F} (hbeta : msk.beta = 0) (user : String)
    {st : Granting F G₁ G₂ Gₜ} {existing : Except String (UserSecretKey G₂)}
    (hnames : ∀ a ∈ mergeExisting st.flatAttrs existing, a ∈ st.pp.attributes) :
    mintKey msk user st existing = .error (.panic "beta is sampled nonzero w.o.p.") := by
  have hkeygen : keygen st.pp msk user (mergeExisting st.flatAttrs existing) st.rng =
      .error (.panic "beta is sampled nonzero w.o.p.") := keygen_eq_panic_iff.2 ⟨hnames, hbeta, rfl⟩
  simp only [mintKey, hkeygen]
  rfl

/-! ## The commands -/

omit [DecidableEq F] in
theorem calm_cmdSetup (fresh : Fresh F) : Calm (cmdSetup C D data fresh) := by
  refine (Fs.calm_createDirAll _).mapErr.bind fun _ => ?_
  refine (calm_saveSetup C D data _ _).bind fun _ => ?_
  refine (calm_saveRegistry D data _).bind fun _ => ?_
  exact (calm_open _).mapErr.bind fun _ => calm_recordEvent D data _

theorem calm_cmdRegisterAuthority (name controls : String) :
    Calm (cmdRegisterAuthority D data name controls) :=
  (calm_loadRegistry D data).bind fun _ => calm_saveRegistry D data _

omit [DecidableEq F] in
theorem calm_cmdEncrypt (file policy : String) (fresh : Fresh F) :
    Calm (cmdEncrypt C A D cwd data file policy fresh) := by
  have hprepare : Calm (prepareEncrypt C D data policy fresh) := by
    refine (calm_loadSetup C D data).bind fun setup => ?_
    refine (calm_loadRevocation D data).bind fun revocation => ?_
    exact (panicsIn_ofOutcome (Outcome.calm_ofExcept _ _)).bind fun rawTree => calm_pure _
  refine hprepare.bind fun prepared => ?_
  refine (calm_saveSetup C D data _ _).bind fun _ => ?_
  refine (Fs.calm_read _).mapErr.bind fun plaintext => ?_
  refine (panicsIn_ofOutcome (Outcome.PanicsIn.mapErr ?_)).bind fun package => ?_
  · refine (Outcome.calm_okOr _ _).bind fun fileCiphertext _ => ?_
    exact (calm_encryptKey C A D _ _ _ _ _).mapErr.bind fun _ _ => Outcome.calm_ok _
  refine (calm_open _).mapErr.bind fun store => ?_
  exact (calm_put C D store _ _ _).mapErr.bind fun id => calm_recordEvent D data _

/-- A list that is changed, saved and dropped. -/
theorem calm_dropReceiver {ε α β σ : Type} {x : FileCmd ε α} (hx : Calm x)
    {g : Outcome ε α → Outcome ε β × σ} (hg : ∀ saved, saved.Calm → (g saved).1.Calm) :
    Calm (dropReceiver (Prog.bind (β := Outcome ε β × σ) x fun saved => .pure (g saved))) := by
  intro es msg hp
  obtain ⟨es₁, r, es₂, rfl, hsave, hend⟩ := Prog.performs_bind.1 hp
  obtain ⟨rfl, hr⟩ := Prog.performs_pure.1 hend
  obtain ⟨es₃, saved, es₄, rfl, hx', hend⟩ := Prog.performs_bind.1 hsave
  obtain ⟨rfl, rfl⟩ := Prog.performs_pure.1 hend
  refine hg saved ?_ msg hr.symm
  rintro msg' rfl
  exact hx es₃ msg' hx'

omit [Field F] [DecidableEq F] in
theorem calm_cmdRevokeAttribute (attr : String) (fresh : Fresh F) :
    Calm (cmdRevokeAttribute D data attr fresh) := by
  refine (calm_loadRevocation D data).bind fun revocation => ?_
  refine (calm_dropReceiver (Fs.calm_write _ _).mapErr fun saved hsaved => ?_).mapErr.bind fun epoch =>
    calm_recordEvent D data _
  cases saved with
  | error e =>
    intro msg he
    exact hsaved msg (congrArg Except.error (Except.error.inj he))
  | ok u => exact Outcome.calm_ok _

omit [Field F] [DecidableEq F] in
theorem calm_cmdRevokeUser (user : String) (fresh : Fresh F) : Calm (cmdRevokeUser D data user fresh) := by
  refine (calm_loadRevocation D data).bind fun revocation => ?_
  exact (calm_dropReceiver (Fs.calm_write _ _).mapErr fun saved hsaved => hsaved).mapErr.bind fun _ =>
    calm_recordEvent D data _

theorem calm_cmdList : Calm (cmdList D data) :=
  (calm_open _).mapErr.bind fun store => (calm_list D store).mapErr.bind fun _ => calm_pure _

theorem calm_cmdAudit : Calm (cmdAudit D data) :=
  (calm_readAll D _).mapErr.bind fun _ => calm_pure _

/-- `prepareIssue` with the strings collected. -/
def prepareCollecting (args : IssueArgs) (fresh : Fresh F) : FileCmd String (Issued F G₁ G₂ Gₜ) := do
  let (pp, msk) ← loadSetup C D data
  let registry ← loadRegistry D data
  let revocation ← loadRevocation D data
  let _ ← Cmd.attempt (Fs.readToString (revocationPath data))
  let revCheck ← loadRevocation D data
  if revCheck.isUserRevoked args.user = true then
    Cmd.ofOutcome (Outcome.err (revokedMessage args.user))
  else do
    let claims ← Cmd.ofOutcome (parseClaims args.flags args.texts args.numerics)
    let st ← Cmd.ofOutcome (grantCollecting registry revocation args.authority claims
      { pp, flatAttrs := [], rng := fresh.scalars })
    let existing ← Cmd.attempt (loadUserKey C D data args.user)
    Cmd.ofOutcome (mintKey msk args.user st existing)

/-- `cmdIssue` with the strings collected. -/
def cmdIssueCollecting (args : IssueArgs) (fresh : Fresh F) : FileCmd String Unit := do
  let key ← prepareCollecting C D data args fresh
  saveSetup C D data key.pp key.msk
  saveUserKey C D data args.user key.usk
  recordEvent D data (fresh.event args.authority "ISSUE_KEY" args.user
    ("attributes=" ++ ",".intercalate key.flatAttrs))

/-- `Command.run` with the strings of claims collected. -/
def Command.runCollecting (command : Command) (fresh : Fresh F) : FileCmd String Unit :=
  match command with
  | .issue args => cmdIssueCollecting C D data args fresh
  | command => command.run C A D cwd data fresh

/-- The claims of a request that parses, if there are any, have strings that fit a vector. -/
def Command.FitsVec (command : Command) : Prop :=
  ∀ args claims, command = .issue args → parseClaims args.flags args.texts args.numerics = .ok claims →
    ∀ claim ∈ claims, Claim.FitsVec claim

theorem cmdIssueCollecting_eq (args : IssueArgs) (fresh : Fresh F)
    (hfits : ∀ claims, parseClaims args.flags args.texts args.numerics = .ok claims →
      ∀ claim ∈ claims, Claim.FitsVec claim) :
    cmdIssueCollecting C D data args fresh = cmdIssue C D data args fresh := by
  unfold cmdIssueCollecting cmdIssue prepareCollecting prepareIssue
  cases hclaims : parseClaims args.flags args.texts args.numerics with
  | error e => rfl
  | ok claims =>
    have hparsed : ∀ f : List Claim → FileCmd String (Issued F G₁ G₂ Gₜ),
      Cmd.ofOutcome (.ok claims) >>= f = f claims := fun f => rfl
    have hgrant := fun registry revocation (st : Granting F G₁ G₂ Gₜ) =>
      grantCollecting_eq registry revocation args.authority (hfits claims hclaims) st
    simp only [hparsed, hgrant]

/-- **Where the strings fit** the command is the one without the check. -/
theorem runCollecting_eq_run {command : Command} (hfits : command.FitsVec) (fresh : Fresh F) :
    command.runCollecting C A D cwd data fresh = command.run C A D cwd data fresh := by
  cases command with
  | issue args => exact cmdIssueCollecting_eq C D data args fresh fun claims => hfits args claims rfl
  | _ => rfl

/-- Issuing panics if the setup that it loads has a `beta` that is zero, or if the strings of a claim do
not fit, and only then. -/
theorem performs_cmdIssue_panic {args : IssueArgs} {fresh : Fresh F} {es : List (Event FileOp.Reply)}
    {msg : String}
    (h : Prog.Performs (cmdIssueCollecting C D data args fresh) es (.error (.panic msg))) :
    (∃ es₁ pp msk es₂, es = es₁ ++ es₂ ∧ Prog.Performs (loadSetup C D data) es₁ (.ok (pp, msk)) ∧
      msk.beta = 0 ∧ msg = "beta is sampled nonzero w.o.p.") ∨
    (∃ claims claim, parseClaims args.flags args.texts args.numerics = .ok claims ∧ claim ∈ claims ∧
      ¬ Claim.FitsVec claim ∧ msg = "capacity overflow") := by
  -- nothing after the key is made panics
  rcases performs_bind_panic.1 h with hprepare | ⟨es₁, key, es₂, -, -, hrest⟩
  · rcases performs_bind_panic.1 hprepare with hload | ⟨es₁, ⟨pp, msk⟩, es₂, rfl, hload, hrest⟩
    · exact (calm_loadSetup C D data es msg hload).elim
    refine Or.imp (fun hbeta => ⟨es₁, pp, msk, es₂, rfl, hload, hbeta⟩) id (PanicsIn.bind
      (P := fun msg => msk.beta = 0 ∧ msg = "beta is sampled nonzero w.o.p." ∨
        ∃ claims claim, parseClaims args.flags args.texts args.numerics = .ok claims ∧ claim ∈ claims ∧
          ¬ Claim.FitsVec claim ∧ msg = "capacity overflow")
      (calm_loadRegistry D data).panicsIn (fun registry => ?_) es₂ msg hrest)
    refine (calm_loadRevocation D data).panicsIn.bind fun revocation => ?_
    refine (Fs.calm_readToString _).panicsIn.attempt.bind fun _ => ?_
    refine (calm_loadRevocation D data).panicsIn.bind fun revCheck => ?_
    refine PanicsIn.ite (panicsIn_ofOutcome (Outcome.calm_err _).panicsIn) ?_
    refine PanicsIn.ofOutcome_bind (calm_parseClaims _ _ _).panicsIn fun claims hclaims => ?_
    refine PanicsIn.bind (panicsIn_ofOutcome ?_) fun st => ?_
    · refine (panicsIn_grantCollecting registry revocation args.authority claims _).mono fun msg hmsg => ?_
      obtain ⟨⟨claim, hclaim, hfits⟩, hmsg⟩ := hmsg
      exact Or.inr ⟨claims, claim, hclaims, hclaim, hfits, hmsg⟩
    refine (calm_loadUserKey C D data args.user).panicsIn.attempt.bind fun existing => ?_
    exact panicsIn_ofOutcome ((panicsIn_mintKey msk args.user st existing).mono fun msg => Or.inl)
  · have hsave : Calm (do
        saveSetup C D data key.pp key.msk
        saveUserKey C D data args.user key.usk
        recordEvent D data (fresh.event args.authority "ISSUE_KEY" args.user
          ("attributes=" ++ ",".intercalate key.flatAttrs))) := by
      refine (calm_saveSetup C D data _ _).bind fun _ => ?_
      exact (calm_saveUserKey C D data _ _).bind fun _ => calm_recordEvent D data _
    exact (hsave es₂ msg hrest).elim

/-- Decryption panics only on a package with a gate of too many children. -/
theorem performs_cmdDecrypt_panic {n : ℕ} (hF : IndicesDistinct F n) {id user out : String}
    {fresh : Fresh F} {es : List (Event FileOp.Reply)} {msg : String}
    (h : Prog.Performs (cmdDecrypt C A D cwd data id user out fresh) es (.error (.panic msg))) :
    ∃ es₁ es₂ package es₃, es = es₁ ++ (es₂ ++ es₃) ∧
      Prog.Performs ((PackageStore.mk (packagesDir data)).get C D id) es₂ (.ok package) ∧
      ¬ package.keyCiphertext.tree.ChildrenLt n := by
  rcases performs_bind_panic.1 h with hload | ⟨es₁, setup, rest₁, rfl, hsetup, h⟩
  · exact (calm_loadSetup C D data _ msg hload).elim
  rcases performs_bind_panic.1 h with hload | ⟨es₂, usk, rest₂, rfl, husk, h⟩
  · exact (calm_loadUserKey C D data user _ msg hload).elim
  rcases performs_bind_panic.1 h with hopen | ⟨es₃, store, rest₃, rfl, hstore, h⟩
  · exact ((calm_open _).mapErr _ msg hopen).elim
  rcases performs_bind_panic.1 h with hget | ⟨es₄, package, rest₄, rfl, hget, hrest⟩
  · exact ((calm_get C D store id).mapErr _ msg hget).elim
  have hroot : store = ⟨packagesDir data⟩ := by
    obtain ⟨_, _, _, -, -, hend⟩ := performs_bind_ok.1 (performs_mapErr_ok hstore)
    exact Except.ok.inj (Prog.performs_pure.1 hend).2
  subst hroot
  refine ⟨es₁ ++ (es₂ ++ es₃), es₄, package, rest₄, by simp only [List.append_assoc],
    performs_mapErr_ok hget, fun htree => ?_⟩
  -- what is left is opening the package, and what follows it
  have hopened : (Envelope.open C A D setup.1 usk package).Calm :=
    (calm_decryptKey C A D hF setup.1 usk htree).mapErr.bind fun _ _ => Outcome.calm_okOr _ _
  refine PanicsIn.bind (panicsIn_ofOutcome hopened).attempt (fun opened => ?_) rest₄ msg hrest
  cases opened with
  | ok plaintext => exact (Fs.calm_write _ _).mapErr.bind fun _ => calm_recordEvent D data _
  | error e =>
    exact (calm_recordEvent D data _).bind fun _ => panicsIn_ofOutcome (Outcome.calm_err _)

/-- **When a command panics**, whatever its accesses return: issuing on a setup with a `beta` that is
zero or for a claim whose strings do not fit a vector, or decryption of a package with a gate of at least
`2 ^ 64` children. Listing packages and events never does. -/
theorem performs_run_panic {p : ℕ} [CharP F p] (hp : 2 ^ 64 < p) :
    (∀ {command : Command} {fresh : Fresh F} {es : List (Event FileOp.Reply)} {msg : String},
      Prog.Performs (command.runCollecting C A D cwd data fresh) es (.error (.panic msg)) →
      (∃ args es₁ pp msk es₂, command = .issue args ∧ es = es₁ ++ es₂ ∧
        Prog.Performs (loadSetup C D data) es₁ (.ok (pp, msk)) ∧ msk.beta = 0 ∧
        msg = "beta is sampled nonzero w.o.p.") ∨
      (∃ args claims claim, command = .issue args ∧
        parseClaims args.flags args.texts args.numerics = .ok claims ∧ claim ∈ claims ∧
        ¬ Claim.FitsVec claim ∧ msg = "capacity overflow") ∨
      (∃ id user out es₁ es₂ package es₃, command = .decrypt id user out ∧ es = es₁ ++ (es₂ ++ es₃) ∧
        Prog.Performs ((PackageStore.mk (packagesDir data)).get C D id) es₂ (.ok package) ∧
        ¬ package.keyCiphertext.tree.ChildrenLt (2 ^ 64))) ∧
    Calm (cmdList D data) ∧ Calm (cmdAudit D data) := by
  refine ⟨fun {command fresh es msg} h => ?_, calm_cmdList D data, calm_cmdAudit D data⟩
  cases command with
  | setup => exact (calm_cmdSetup C D data fresh es msg h).elim
  | registerAuthority name controls => exact (calm_cmdRegisterAuthority D data name controls es msg h).elim
  | issue args =>
    rcases performs_cmdIssue_panic C D data h with
      ⟨es₁, pp, msk, es₂, hes, hload, hbeta, hmsg⟩ | ⟨claims, claim, hclaims, hclaim, hfits, hmsg⟩
    · exact Or.inl ⟨args, es₁, pp, msk, es₂, rfl, hes, hload, hbeta, hmsg⟩
    · exact Or.inr (Or.inl ⟨args, claims, claim, rfl, hclaims, hclaim, hfits, hmsg⟩)
  | encrypt file policy => exact (calm_cmdEncrypt C A D cwd data file policy fresh es msg h).elim
  | decrypt id user out =>
    obtain ⟨es₁, es₂, package, es₃, hes, hget, htree⟩ :=
      performs_cmdDecrypt_panic C A D cwd data (IndicesDistinct.of_charP hp.le) h
    exact Or.inr (Or.inr ⟨id, user, out, es₁, es₂, package, es₃, rfl, hes, hget, htree⟩)
  | revokeAttribute attr => exact (calm_cmdRevokeAttribute D data attr fresh es msg h).elim
  | revokeUser user => exact (calm_cmdRevokeUser D data user fresh es msg h).elim

/-- A setup with two zeros. -/
def zeroStart : Disk :=
  (Fs.exec (cmdSetup exponents serdeJsonUnlimited exampleData { exampleFresh with scalars := fun _ => 0 })
    emptyDisk).2

/-- Nobody can be issued a key. -/
theorem performs_run_panic_zeroStart : ∃ es₁ pp msk es₂,
    Prog.Performs (cmdIssue exponents serdeJsonUnlimited exampleData nobodyToEve exampleFresh)
      (es₁ ++ es₂) (.error (.panic "beta is sampled nonzero w.o.p.")) ∧
    Prog.Performs (loadSetup exponents serdeJsonUnlimited exampleData) es₁ (.ok (pp, msk)) ∧
    msk.beta = 0 := by
  have hD := readsBack_serdeJsonUnlimited.shallow
  have h : Represents exponents serdeJsonUnlimited exampleData zeroStart _ :=
    represents_cmdSetup exponents serdeJsonUnlimited (vacant_emptyDisk exampleData) _
  have hadmits : Admits exponents serdeJsonUnlimited exampleData nobodyToEve zeroStart
      ⟨_, _, _, _, [], .error "no key on file for user 'eve'; run `issue` first"⟩ :=
    ⟨h.setupOn_eq readsBack_exponents hexReadsBack_serdeJsonUnlimited hD, h.registryOn_eq hD,
      h.revocationOn_eq hD, rfl, rfl, List.forall_mem_nil _,
      congrArg Cmd.caught (h.userKeyOn_eq_err (by decide : '/' ∉ "eve".toList) rfl)⟩
  have hrun : Fs.exec (cmdIssue exponents serdeJsonUnlimited exampleData nobodyToEve exampleFresh)
      zeroStart = (.error (.panic "beta is sampled nonzero w.o.p."), zeroStart) := by
    rw [exec_cmdIssue, issueOutcome_eq hadmits, mintKey_of_beta_eq_zero rfl _ fun a ha => by cases ha]
    rfl
  obtain ⟨es, hes, -⟩ := Prog.run_eq_iff.1 hrun
  have hcollecting : (Command.issue nobodyToEve).runCollecting exponents boxes serdeJsonUnlimited
      exampleCwd exampleData exampleFresh =
    cmdIssue exponents serdeJsonUnlimited exampleData nobodyToEve exampleFresh := by
    apply cmdIssueCollecting_eq
    rintro claims ⟨⟩ claim hclaim
    cases hclaim
  have hperforms := hes
  rw [← hcollecting] at hperforms
  rcases (performs_run_panic exponents boxes serdeJsonUnlimited exampleCwd exampleData
    (by norm_num : 2 ^ 64 < scalarModulus)).1 hperforms with
    ⟨-, es₁, pp, msk, es₂, -, rfl, hload, hbeta, -⟩ | ⟨-, -, -, -, -, -, -, hmsg⟩ |
      ⟨_, _, _, _, _, _, _, hcommand, -⟩
  · exact ⟨es₁, pp, msk, es₂, hes, hload, hbeta⟩
  · simp at hmsg
  · cases hcommand

end SecureABE.Cli
