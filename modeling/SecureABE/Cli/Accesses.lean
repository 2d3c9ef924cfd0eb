import SecureABE.Cli.Naming
import SecureABE.Foundations.SharedDisk

/-!
# What a command does on a disk that it shares

Between the accesses of a command the files may change. `Allowed` says what the commands that add to a
deployment do nevertheless, in terms of the accesses that they have made before: parameters are saved that
extend those loaded, a key is saved with the names of the one found, after the parameters that it was made
with, and so is a package, and a revocation list is saved that has one more revocation than the one loaded.
`obeys_run` is that the commands do this, whatever they find.
-/

namespace SecureABE.Cli

open Rust SecureABE.Core SecureABE.Policy SecureABE.Revocation SecureABE.Authorities SecureABE.Audit
  SecureABE.Envelope SecureABE.Storage

variable {F G₁ G₂ Gₜ : Type} [Field F] [DecidableEq F] [AddCommGroup G₁] [Module F G₁]
  [AddCommGroup G₂] [Module F G₂] [AddCommGroup Gₜ] [Module F Gₜ]
variable (C : Curve F G₁ G₂ Gₜ) (A : Cipher) (D : Codec) (cwd data : Path)

/-! ## What a command knows -/

/-- The parameters that the command has loaded. -/
def KnowsSetup (past : List (Event FileOp.Reply)) (pp : PublicParams G₁ G₂ Gₜ) (msk : MasterSecret F) : Prop :=
  Fs.Knows (setupPath data) (fun d => setupOn C D data d = .ok (pp, msk)) past

/-- The key of a user, if the command has found one. -/
def KnowsKey (user : String) (past : List (Event FileOp.Reply))
    (existing : Except String (UserSecretKey G₂)) : Prop :=
  Fs.Knows (keyFile data user)
    (fun d => (Cmd.caught (userKeyOn C D data user d) : Outcome String _) = .ok existing) past

/-- The revocation list that the command has loaded. -/
def KnowsRevocation (past : List (Event FileOp.Reply)) (rl : RevocationList) : Prop :=
  Fs.Knows (revocationPath data) (fun d => revocationOn D data d = .ok rl) past

/-- The command has saved the parameters, which extend those that it has loaded. -/
def SavedSetup (past : List (Event FileOp.Reply)) (pp : PublicParams G₁ G₂ Gₜ) (msk : MasterSecret F) : Prop :=
  ∃ es r es' pp₀, past = es ++ ⟨.write (setupPath data) (setupBytes C D pp msk), r⟩ :: es' ∧
    KnowsSetup C D data es pp₀ msk ∧ ∃ calls : List (String × Rng F), pp = registerAll pp₀ calls

/-- The command has saved the revocation list. -/
def SavedRevocation (past : List (Event FileOp.Reply)) : Prop :=
  ∃ e ∈ past, e.op.Writes (revocationPath data)

instance (past : List (Event FileOp.Reply)) : Decidable (SavedRevocation data past) :=
  inferInstanceAs (Decidable (∃ e ∈ past, e.op.Writes (revocationPath data)))

/-! ## What a command may do -/

/-- The contents that a command may save in a file after other accesses. -/
inductive Saves (command : Command) (past : List (Event FileOp.Reply)) : File → Bytes → Prop
  | setup {pp : PublicParams G₁ G₂ Gₜ} {msk : MasterSecret F} (h : KnowsSetup C D data past pp msk)
      (calls : List (String × Rng F)) :
      Saves command past .setup (setupBytes C D (registerAll pp calls) msk)
  | key {args : IssueArgs} {existing : Except String (UserSecretKey G₂)} {pp : PublicParams G₁ G₂ Gₜ}
      {msk : MasterSecret F} {attrs : List String} {r : F} {usk : UserSecretKey G₂}
      (hcommand : command = .issue args) (h : KnowsKey C D data args.user past existing)
      (hsaved : SavedSetup C D data past pp msk) (husk : Minted pp msk attrs r usk)
      (hmerged : ∀ old, existing = .ok old → ∀ a ∈ old.attributes, a ∈ usk.attributes) :
      Saves command past (.key (Path.lastPart args.user)) (userKeyBytes C D usk)
  | sealedDoc (id : String) (b : Bytes) : Saves command past (.sealedDoc id) b
  | wrappedKey (id : String) {pp : PublicParams G₁ G₂ Gₜ} {msk : MasterSecret F} {tree : AccessTree}
      {plaintext : Bytes} {package : EncryptedPackage G₁} (hsaved : SavedSetup C D data past pp msk)
      (hseals : Seals C A D pp tree plaintext package) :
      Saves command past (.wrappedKey id) (PackageStore.keyBytes C D package)
  | manifest (id : String) (b : Bytes) : Saves command past (.manifest id) b
  | revokedAttribute {attr : String} {rl : RevocationList} (hcommand : command = .revokeAttribute attr)
      (h : KnowsRevocation D data past rl) (hfirst : ¬ SavedRevocation data past) :
      Saves command past .revocation (RevocationList.encode D (rl.bumped attr).state)
  | revokedUser {user : String} {rl : RevocationList} (hcommand : command = .revokeUser user)
      (h : KnowsRevocation D data past rl) (hfirst : ¬ SavedRevocation data past) :
      Saves command past .revocation (RevocationList.encode D (rl.withUser user).state)

/-- The accesses that a command may make after others. -/
inductive Allowed (command : Command) (past : List (Event FileOp.Reply)) : FileOp → Prop
  | read (p : Path) : Allowed command past (.read p)
  | exist (p : Path) : Allowed command past (.exist p)
  | createDirAll {cs : List String} (hcs : ¬ ["revocation.json"] <+: cs) :
      Allowed command past (.createDirAll (data.under cs))
  | openLog : Allowed command past (.openAppend (File.audit.path data))
  | log (b : Bytes) : Allowed command past (.append (File.audit.path data) b)
  | save {f : File} {b : Bytes} (h : Saves C A D data command past f b) :
      Allowed command past (.write (f.path data) b)

variable {C A D cwd data}

section

variable {command : Command} {past : List (Event FileOp.Reply)} {op : FileOp} {p : Path}

omit [DecidableEq F]

/-- How a file of the deployment other than the log is changed. -/
theorem Allowed.saves (h : Allowed C A D data command past op) {f : File} (hf : f ≠ .audit)
    (hop : op.Writes (f.path data)) :
    ∃ b, op = .write (f.path data) b ∧ Saves C A D data command past f b := by
  cases h with
  | read q | exist q | createDirAll hcs => cases hop
  | openLog | log b => exact absurd (File.path_injective hop).symm hf
  | @save g b h =>
    obtain rfl := File.path_injective hop
    exact ⟨b, rfl, h⟩

theorem Allowed.of_looksAt (h : op.LooksAt p) : Allowed C A D data command past op := by
  cases op with
  | read q => exact .read q
  | exist q => exact .exist q
  | _ => cases h

end

omit [DecidableEq F] in
theorem SavedSetup.append {past : List (Event FileOp.Reply)} {pp : PublicParams G₁ G₂ Gₜ}
    {msk : MasterSecret F} (h : SavedSetup C D data past pp msk) (es : List (Event FileOp.Reply)) :
    SavedSetup C D data (past ++ es) pp msk := by
  obtain ⟨es₁, r, es₂, pp₀, rfl, hknows, hcalls⟩ := h
  exact ⟨es₁, r, es₂ ++ es, pp₀, by simp, hknows, hcalls⟩

/-! ## Loading -/

variable (C D data) in
omit [DecidableEq F] in
theorem shows_loadSetup : Fs.Shows (setupPath data) (loadSetup C D data) (setupOn C D data) :=
  (Fs.shows_readToString _).mapErr.bind_ofOutcome

variable (C D data) in
omit [DecidableEq F] in
theorem shows_loadUserKey (user : String) :
    Fs.Shows (keyFile data user) (loadUserKey C D data user) (userKeyOn C D data user) :=
  (Fs.shows_readToString _).mapErr.bind_ofOutcome

variable (D data) in
/-- A revocation list that is loaded is what a disk holds, with or without a file. -/
theorem knows_loadRevocation (past : List (Event FileOp.Reply)) :
    Cmd.Obeys (fun _ op => op.LooksAt (revocationPath data)) (loadRevocation D data)
      (fun past rl => KnowsRevocation D data past rl ∧ rl.path = revocationPath data) past := by
  have hload : Cmd.Obeys (fun _ op => op.LooksAt (revocationPath data))
      (RevocationState.load D (revocationPath data))
      (fun past st => Fs.Knows (revocationPath data) (fun d => revocationStateOn D data d = .ok st) past)
      past := by
    have hexist : Cmd.Obeys (fun _ op => op.LooksAt (revocationPath data))
        (Fs.exist (revocationPath data) : FileCmd RevocationError Bool) (fun past there => there = false →
          Fs.Knows (revocationPath data) (fun d => d.has (revocationPath data) = false) past) past :=
      Cmd.obeys_perform rfl fun r hr =>
        knows_concat (e := ⟨.exist (revocationPath data), r⟩) past rfl fun d hreply => hreply.trans hr
    refine hexist.bind fun past there hthere => Cmd.Obeys.ite (fun _ => ?_) fun hne => ?_
    · have hread := (Fs.shows_readToString (revocationPath data)).mapErr (g := RevocationError.io)
      apply Prog.Obeys.mono (hread.bind_ofOutcome (g := RevocationState.decode D) past)
      rintro past o ho st rfl
      apply ho.mono
      intro d hd
      obtain ⟨s, hs, -⟩ := bind_eq_ok.1 hd
      obtain ⟨b, hb, -⟩ := bind_eq_ok.1 (Outcome.mapErr_eq_ok.1 hs)
      rw [revocationStateOn, if_pos (Disk.has_of_read (Fs.replied_eq_ok.1 hb))]
      exact hd
    · refine Cmd.obeys_pure ((hthere (by simpa using hne)).mono fun d hd => ?_)
      rw [revocationStateOn, hd, if_neg (by decide)]
  have hopen : Cmd.Obeys (fun _ op => op.LooksAt (revocationPath data))
      (RevocationList.open D (revocationPath data))
      (fun past rl => KnowsRevocation D data past rl ∧ rl.path = revocationPath data) past :=
    hload.bind fun past st hst => Cmd.obeys_pure ⟨hst.mono fun d hd => by
      rw [revocationOn, hd, ok_bind, Outcome.mapErr_ok], rfl⟩
  exact hopen.mapErr

/-! ## Preparing -/

section Preparing

variable {R : List (Event FileOp.Reply) → FileOp → Prop} {past : List (Event FileOp.Reply)}
  (hR : ∀ past op p, op.LooksAt p → R past op)
include hR

variable (C D data) in
omit [DecidableEq F] in
theorem obeys_loadSetup : Cmd.Obeys R (loadSetup C D data)
    (fun past setup => KnowsSetup C D data past setup.1 setup.2) past :=
  ((shows_loadSetup C D data).obeys (I := fun _ => True) (fun past op h => hR past op _ h)
    (fun _ _ _ _ => trivial) trivial).mono fun _ _ h => h.2

omit [DecidableEq F] in
/-- What is known of the parameters is not lost by looking at other files. -/
theorem obeys_of_looks {ε α : Type} {x : FileCmd ε α} {V : α → Prop} {p : Path}
    (h : Cmd.Only (fun op => op.LooksAt p) x V) (hp : p ≠ setupPath data)
    {pp : PublicParams G₁ G₂ Gₜ} {msk : MasterSecret F} (hknows : KnowsSetup C D data past pp msk) :
    Cmd.Obeys R x (fun past _ => KnowsSetup C D data past pp msk) past :=
  (h.obeys (I := fun past => KnowsSetup C D data past pp msk) (fun past op hop => hR past op p hop)
    (fun _ _ hlook hk => Fs.Knows.look hk hlook hp) hknows).mono fun _ _ h => h.1

variable (C D data) in
/-- **A key that is ready to be saved** is minted with the parameters that were loaded, extended, and has
the names of the key that was found. -/
theorem obeys_prepareIssue {args : IssueArgs} (huser : (keysDir data).LeadsInto (args.user ++ ".json"))
    (fresh : Fresh F) : Cmd.Obeys R (prepareIssue C D data args fresh) (fun past key =>
      ∃ pp, KnowsSetup C D data past pp key.msk ∧
        (∃ calls : List (String × Rng F), key.pp = registerAll pp calls) ∧
        ∃ existing, KnowsKey C D data args.user past existing ∧
          (∀ old, existing = .ok old → ∀ a ∈ old.attributes, a ∈ key.flatAttrs) ∧
          ∃ r, Minted key.pp key.msk key.flatAttrs r key.usk) past := by
  have hauthorities : authoritiesPath data ≠ setupPath data := by
    rw [authoritiesPath_eq, setupPath_eq]
    exact fun h => by cases File.path_injective h
  have hrevocation : revocationPath data ≠ setupPath data := by
    rw [revocationPath_eq, setupPath_eq]
    exact fun h => by cases File.path_injective h
  apply (obeys_loadSetup C D data hR).bind
  rintro past ⟨pp, msk⟩ hsetup
  apply (obeys_of_looks hR (only_loadRegistry D data rfl rfl) hauthorities hsetup).bind
  intro past registry hsetup
  apply (obeys_of_looks hR (only_loadRevocation D data rfl rfl) hrevocation hsetup).bind
  intro past revocation hsetup
  refine (obeys_of_looks hR (Fs.only_readToString
    (P := fun op => op.LooksAt (revocationPath data)) rfl).attempt hrevocation hsetup).bind ?_
  intro past hint hsetup
  apply (obeys_of_looks hR (only_loadRevocation D data rfl rfl) hrevocation hsetup).bind
  intro past revCheck hsetup
  apply Cmd.Obeys.ite (fun _ => Cmd.obeys_ofOutcome fun key hkey => (by cases hkey))
  intro _
  apply (Cmd.obeys_ofOutcome (Q := fun past _ => KnowsSetup C D data past pp msk) fun _ _ => hsetup).bind
  intro past claims hsetup
  refine (Cmd.obeys_ofOutcome (Q := fun past st => KnowsSetup C D data past pp msk ∧
    grantClaims registry revocation args.authority claims { pp, flatAttrs := [], rng := fresh.scalars } =
      .ok st) fun st hst => ⟨hsetup, hst⟩).bind ?_
  rintro past st ⟨hsetup, hst⟩
  refine ((shows_loadUserKey C D data args.user).attempt.obeys
    (I := fun past => KnowsSetup C D data past pp msk) (fun past op h => hR past op _ h)
    (fun _ _ hlook hk => Fs.Knows.look hk hlook (keyFile_ne_setupPath_of_leadsInto huser))
    hsetup).bind ?_
  rintro past existing ⟨hsetup, hkey⟩
  apply Cmd.obeys_ofOutcome
  intro key hminted
  obtain ⟨-, hpp, rfl, hflat, -, r, hminted⟩ := mintKey_eq_ok hminted
  obtain ⟨-, calls, -, hcalls⟩ := exists_registerAll_foldl_add revocation (resolved claims)
    { pp, flatAttrs := [], rng := fresh.scalars }
  rw [(grantClaims_eq_ok.1 hst).2] at hcalls
  refine ⟨pp, hsetup, ⟨calls, hpp.trans hcalls⟩, existing, hkey, fun old hold a ha => ?_, r, hpp ▸ hminted⟩
  rw [hflat, mem_mergeExisting]
  exact Or.inr ⟨old, hold, ha⟩

variable (C D data) in
omit [DecidableEq F] in
/-- **What is prepared for a package** has the parameters that were loaded, extended. -/
theorem obeys_prepareEncrypt (policy : String) (fresh : Fresh F) :
    Cmd.Obeys R (prepareEncrypt C D data policy fresh) (fun past prepared =>
      ∃ pp, KnowsSetup C D data past pp prepared.msk ∧
        ∃ calls : List (String × Rng F), prepared.pp = registerAll pp calls) past := by
  have hrevocation : revocationPath data ≠ setupPath data := by
    rw [revocationPath_eq, setupPath_eq]
    exact fun h => by cases File.path_injective h
  apply (obeys_loadSetup C D data hR).bind
  rintro past ⟨pp, msk⟩ hsetup
  apply (obeys_of_looks hR (only_loadRevocation D data rfl rfl) hrevocation hsetup).bind
  intro past revocation hsetup
  apply (Cmd.obeys_ofOutcome (Q := fun past _ => KnowsSetup C D data past pp msk) fun _ _ => hsetup).bind
  intro past rawTree hsetup
  refine Cmd.obeys_pure ⟨pp, hsetup, ?_⟩
  obtain ⟨calls, -, hcalls⟩ := exists_registerAll_registerLeaves (retagTree rawTree revocation).leaves
    pp fresh.scalars
  exact ⟨calls, hcalls⟩

end Preparing

/-! ## The commands -/

section Commands

variable {command : Command} {past : List (Event FileOp.Reply)}

omit [DecidableEq F] in
theorem obeys_recordEvent {I : List (Event FileOp.Reply) → Prop} (hI : ∀ past e, I past → I (past ++ [e]))
    (hp : I past) (event : AuditEvent) :
    Cmd.Obeys (Allowed C A D data command) (recordEvent D data event) (fun past _ => I past) past := by
  rw [recordEvent, auditPath_eq]
  refine Cmd.Obeys.mapErr (Cmd.Obeys.bind (Q := fun past _ => I past) ?_ fun past _ hp => ?_)
  · exact (Fs.single_openAppend _).mapErr.obeys .openLog fun _ => hI _ _ hp
  refine Cmd.Obeys.bind (Q := fun past _ => I past) ?_ fun past _ hp => ?_
  · exact (Fs.single_append _ _).mapErr.obeys (.log _) fun _ => hI _ _ hp
  · exact (Fs.single_append _ _).mapErr.obeys (.log _) fun _ => hI _ _ hp

variable (C A D data) in
theorem obeys_cmdIssue {args : IssueArgs} (huser : (keysDir data).LeadsInto (args.user ++ ".json"))
    (fresh : Fresh F) : Cmd.Obeys (Allowed C A D data (.issue args)) (cmdIssue C D data args fresh)
      (fun _ _ => True) past := by
  apply (obeys_prepareIssue C D data (fun _ _ _ => Allowed.of_looksAt) huser fresh).bind
  rintro past key ⟨pp, hsetup, ⟨calls, hpp⟩, existing, hkey, hmerged, r, hminted⟩
  -- what is known of the key file is from before the parameters are saved
  refine Cmd.Obeys.bind (Q := fun past _ => SavedSetup C D data past key.pp key.msk ∧
    KnowsKey C D data args.user past existing) ?_ ?_
  · refine (Fs.single_write _ _).mapErr.obeys ?_ fun r => ?_
    · rw [hpp, setupPath_eq]
      exact .save (.setup hsetup calls)
    · exact ⟨⟨past, r, [], pp, rfl, hsetup, calls, hpp⟩,
        Fs.Knows.write hkey (keyFile_ne_setupPath_of_leadsInto huser).symm⟩
  rintro past - ⟨hsaved, hkey⟩
  refine Cmd.Obeys.bind (Q := fun _ _ => True) ?_ fun past _ _ =>
    obeys_recordEvent (I := fun _ => True) (fun _ _ _ => trivial) trivial _
  refine Cmd.Obeys.bind (Q := fun past _ => SavedSetup C D data past key.pp key.msk ∧
    KnowsKey C D data args.user past existing) ?_ ?_
  · refine (Fs.single_createDirAll _).mapErr.obeys ?_ fun r =>
      ⟨hsaved.append _, Fs.Knows.createDirAll hkey⟩
    rw [keysDir_eq]
    exact .createDirAll (by decide)
  rintro past - ⟨hsaved, hkey⟩
  refine (Fs.single_write _ _).mapErr.obeys ?_ fun _ => trivial
  rw [keyFile_eq_of_leadsInto huser]
  exact .save (.key rfl hkey hsaved hminted fun old hold a ha =>
    (hminted.mem a).2 (hmerged old hold a ha))

omit [DecidableEq F] in
/-- The files of a package, after the parameters that it was sealed with. -/
theorem obeys_put (hX : D.HexReadsBack) (originalFilename : String) {pp : PublicParams G₁ G₂ Gₜ}
    {msk : MasterSecret F} {tree : AccessTree} {plaintext : Bytes} {package : EncryptedPackage G₁}
    (hseals : Seals C A D pp tree plaintext package) (stamp : Stamp)
    (hsaved : SavedSetup C D data past pp msk) :
    Cmd.Obeys (Allowed C A D data command) ((packageStore data).put C D originalFilename package stamp)
      (fun _ _ => True) past := by
  have hid := isName_newId hX stamp
  refine Cmd.Obeys.bind (Q := fun past _ => SavedSetup C D data past pp msk) ?_ fun past _ hsaved => ?_
  · refine (Fs.single_createDirAll _).mapErr.obeys ?_ fun _ => hsaved.append _
    rw [packageDir_eq hid]
    exact .createDirAll (by simp)
  refine Cmd.Obeys.bind (Q := fun past _ => SavedSetup C D data past pp msk) ?_ fun past _ hsaved => ?_
  · refine (Fs.single_write _ _).mapErr.obeys ?_ fun _ => hsaved.append _
    rw [sealedPath_eq hid]
    exact .save (.sealedDoc _ _)
  refine Cmd.Obeys.bind (Q := fun _ _ => True) ?_ fun past _ _ => ?_
  · refine (Fs.single_write _ _).mapErr.obeys ?_ fun _ => trivial
    rw [wrappedKeyPath_eq hid]
    exact .save (.wrappedKey _ hsaved hseals)
  refine Cmd.Obeys.bind (Q := fun _ _ => True) ?_ fun past _ _ => Cmd.obeys_pure trivial
  refine (Fs.single_write _ _).mapErr.obeys ?_ fun _ => trivial
  rw [manifestPath_eq hid]
  exact .save (.manifest _ _)

variable (C A D cwd data) in
omit [DecidableEq F] in
theorem obeys_cmdEncrypt (hX : D.HexReadsBack) (file policy : String) (fresh : Fresh F) :
    Cmd.Obeys (Allowed C A D data command) (cmdEncrypt C A D cwd data file policy fresh)
      (fun _ _ => True) past := by
  apply (obeys_prepareEncrypt C D data (fun _ _ _ => Allowed.of_looksAt) policy fresh).bind
  rintro past prepared ⟨pp, hsetup, calls, hpp⟩
  refine Cmd.Obeys.bind (Q := fun past _ => SavedSetup C D data past prepared.pp prepared.msk) ?_ ?_
  · refine (Fs.single_write _ _).mapErr.obeys ?_ fun r => ⟨past, r, [], pp, rfl, hsetup, calls, hpp⟩
    rw [hpp, setupPath_eq]
    exact .save (.setup hsetup calls)
  intro past _ hsaved
  have hread : Cmd.Only (fun op => op.LooksAt (cwd.join file)) (Fs.read (cwd.join file)) fun _ => True :=
    Fs.only_read rfl
  refine (hread.mapErr.obeys (I := fun past => SavedSetup C D data past prepared.pp prepared.msk)
    (fun _ _ => Allowed.of_looksAt) (fun _ _ _ h => h.append _) hsaved).bind ?_
  rintro past plaintext ⟨hsaved, -⟩
  refine (Cmd.obeys_ofOutcome (Q := fun past sealed =>
    SavedSetup C D data past prepared.pp prepared.msk ∧
      Seals C A D prepared.pp prepared.tree plaintext sealed.1) fun sealed hsealed =>
        ⟨hsaved, seals_of_seal_eq_ok (Outcome.mapErr_eq_ok.1 hsealed)⟩).bind ?_
  rintro past ⟨package, rng⟩ ⟨hsaved, hseals⟩
  refine Cmd.Obeys.bind (Q := fun past store => store = packageStore data ∧
    SavedSetup C D data past prepared.pp prepared.msk) ?_ ?_
  · refine Cmd.Obeys.mapErr (Cmd.Obeys.bind
      (Q := fun past _ => SavedSetup C D data past prepared.pp prepared.msk) ?_ fun past _ hsaved =>
        Cmd.obeys_pure ⟨rfl, hsaved⟩)
    refine (Fs.single_createDirAll _).mapErr.obeys ?_ fun _ => hsaved.append _
    rw [packagesDir_eq]
    exact .createDirAll (by decide)
  rintro past store ⟨rfl, hsaved⟩
  refine ((obeys_put hX _ hseals fresh.stamp hsaved).mapErr).bind fun past id _ =>
    obeys_recordEvent (I := fun _ => True) (fun _ _ _ => trivial) trivial _

theorem savedRevocation_concat {e : Event FileOp.Reply} : SavedRevocation data (past ++ [e]) ↔
    SavedRevocation data past ∨ e.op.Writes (revocationPath data) := by
  simp only [SavedRevocation, List.mem_append, List.mem_singleton, or_and_right, exists_or,
    exists_eq_left]

omit [DecidableEq F] in
/-- A command that has not saved the revocation list loads it. -/
theorem obeys_loadRevocation (hpast : ¬ SavedRevocation data past) :
    Cmd.Obeys (Allowed C A D data command) (loadRevocation D data) (fun past rl =>
      ¬ SavedRevocation data past ∧ KnowsRevocation D data past rl ∧ rl.path = revocationPath data) past := by
  refine (Prog.Obeys.keeps (knows_loadRevocation D data past) (I := fun past => ¬ SavedRevocation data past)
    (fun _ _ _ => Allowed.of_looksAt) ?_ hpast).mono fun past o ho rl hrl => ⟨ho.1, ho.2 rl hrl⟩
  intro past op r hp hlook hsaved
  exact (savedRevocation_concat.1 hsaved).elim hp (hlook.not_writes _)

variable (C A D data) in
omit [DecidableEq F] in
theorem obeys_cmdRevokeAttribute (attr : String) (fresh : Fresh F) :
    Cmd.Obeys (Allowed C A D data (.revokeAttribute attr)) (cmdRevokeAttribute D data attr fresh)
      (fun past _ => SavedRevocation data past) [] := by
  apply (obeys_loadRevocation fun ⟨_, he, _⟩ => (by cases he)).bind
  rintro past rl ⟨hfirst, hknows, hpath⟩
  have hsave : Cmd.Obeys (Allowed C A D data (.revokeAttribute attr))
      (dropReceiver (rl.revokeAttribute D attr)) (fun past _ => SavedRevocation data past) past := by
    refine ⟨?_, fun r _ _ => savedRevocation_concat.2 (Or.inr hpath)⟩
    rw [show (rl.bumped attr).path = revocationPath data from hpath, revocationPath_eq]
    exact .save (.revokedAttribute rfl hknows hfirst)
  exact hsave.mapErr.bind fun past epoch h => obeys_recordEvent
    (fun _ _ h => savedRevocation_concat.2 (Or.inl h)) h _

variable (C A D data) in
omit [DecidableEq F] in
theorem obeys_cmdRevokeUser (user : String) (fresh : Fresh F) :
    Cmd.Obeys (Allowed C A D data (.revokeUser user)) (cmdRevokeUser D data user fresh)
      (fun past _ => SavedRevocation data past) [] := by
  apply (obeys_loadRevocation fun ⟨_, he, _⟩ => (by cases he)).bind
  rintro past rl ⟨hfirst, hknows, hpath⟩
  have hpath := (rl.path_withUser user).trans hpath
  have hsave : Cmd.Obeys (Allowed C A D data (.revokeUser user))
      (dropReceiver (rl.revokeUser D user)) (fun past _ => SavedRevocation data past) past := by
    refine ⟨?_, fun r _ _ => savedRevocation_concat.2 (Or.inr hpath)⟩
    rw [hpath, revocationPath_eq]
    exact .save (.revokedUser rfl hknows hfirst)
  exact hsave.mapErr.bind fun past _ h => obeys_recordEvent
    (fun _ _ h => savedRevocation_concat.2 (Or.inl h)) h _

variable (data) in
/-- A command that adds to a deployment. The name of a user leads into the directory of the keys. -/
def Command.Adds : Command → Prop
  | .issue args => (keysDir data).LeadsInto (args.user ++ ".json")
  | .encrypt _ _ | .revokeAttribute _ | .revokeUser _ => True
  | .setup | .registerAuthority _ _ | .decrypt _ _ _ => False

/-- A command that changes the revocation list. -/
def Command.Revokes : Command → Prop
  | .revokeAttribute _ | .revokeUser _ => True
  | _ => False

variable (C A D cwd data) in
/-- **What a command does on a shared disk** is allowed, and a revocation ends after it has been saved. -/
theorem obeys_run (hX : D.HexReadsBack) {command : Command} (h : command.Adds data) (fresh : Fresh F) :
    Cmd.Obeys (Allowed C A D data command) (command.run C A D cwd data fresh)
      (fun past _ => command.Revokes → SavedRevocation data past) [] := by
  cases command with
  | issue args => exact (obeys_cmdIssue C A D data h fresh).mono fun _ _ _ hno => hno.elim
  | encrypt file policy =>
    exact (obeys_cmdEncrypt C A D cwd data hX file policy fresh).mono fun _ _ _ hno => hno.elim
  | revokeAttribute attr => exact (obeys_cmdRevokeAttribute C A D data attr fresh).mono fun _ _ h _ => h
  | revokeUser user => exact (obeys_cmdRevokeUser C A D data user fresh).mono fun _ _ h _ => h
  | setup | registerAuthority name controls | decrypt id user out => exact h.elim

end Commands

end SecureABE.Cli
