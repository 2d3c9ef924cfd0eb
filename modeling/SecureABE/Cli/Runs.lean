import SecureABE.Authorities.Permission
import SecureABE.Cli.Deployment
import SecureABE.Cli.Encrypting
import SecureABE.Cli.Issuing

/-!
# Runs of the command line

A run is a list of commands, each alone on the disk that the one before has left (`runAll`). Its
`history` is what the successful ones have done: keys issued for claims and packages stored, each with
the revocation list of the time. `grantedTags` are the tags that a history grants to a user.

The deployment that a disk represents agrees with the history (`World.Tells`): every user's key has
the granted tags, and every stored package holds its document, sealed under its tagged policy. A setup
starts such a deployment, each command keeps it (`exists_represents_step`), and so does a run
(`exists_represents_runAll`).
-/

namespace SecureABE.Cli

open Rust SecureABE.Core SecureABE.Policy SecureABE.Revocation SecureABE.Authorities SecureABE.Audit
  SecureABE.Envelope SecureABE.Storage

variable {F G₁ G₂ Gₜ : Type} [Field F] [DecidableEq F] [AddCommGroup G₁] [Module F G₁]
  [AddCommGroup G₂] [Module F G₂] [AddCommGroup Gₜ] [Module F Gₜ]
variable (C : Curve F G₁ G₂ Gₜ) (A : Cipher) (D : Codec) (cwd data : Path)

/-! ## Histories -/

/-- A command with what it draws. -/
structure Call (F : Type) where
  command : Command
  fresh : Fresh F

/-- The outcome of a command and the disk after it. -/
def Call.exec (call : Call F) (d : Disk) : Outcome String Unit × Disk :=
  Fs.exec (call.command.run C A D cwd data call.fresh) d

/-- The disk after a run. -/
def runAll (calls : List (Call F)) (d : Disk) : Disk :=
  calls.foldl (fun d call => (call.exec C A D cwd data d).2) d

/-- What a command does for its users, with the revocation list of the time. -/
inductive Happening
  | issued (user : String) (attrs : List String) (revocation : RevocationList)
  | stored (id policy : String) (plaintext : Bytes) (revocation : RevocationList)

/-- What a command has done, if it succeeded. -/
def Call.done (call : Call F) (d : Disk) : Option Happening :=
  match (call.exec C A D cwd data d).1, revocationOn D data d with
  | .ok (), .ok revocation =>
    match call.command with
    | .issue args => (parseClaims args.flags args.texts args.numerics).toOption.map fun claims =>
        .issued args.user (resolved claims) revocation
    | .encrypt file policy => (inputOn C D cwd data file policy call.fresh d).toOption.map
        fun plaintext => .stored (newId D call.fresh.stamp) policy plaintext revocation
    | _ => none
  | _, _ => none

/-- What the commands of a run have done. -/
def history : List (Call F) → Disk → List Happening
  | [], _ => []
  | call :: calls, d =>
    (call.done C A D cwd data d).toList ++ history calls (call.exec C A D cwd data d).2

theorem runAll_nil (d : Disk) : runAll C A D cwd data [] d = d := rfl

theorem runAll_cons (call : Call F) (calls : List (Call F)) (d : Disk) :
    runAll C A D cwd data (call :: calls) d =
      runAll C A D cwd data calls (call.exec C A D cwd data d).2 := rfl

theorem exec_setup (fresh : Fresh F) (d : Disk) :
    (Call.mk .setup fresh).exec C A D cwd data d = Fs.exec (cmdSetup C D data fresh) d := rfl

theorem exec_issue (args : IssueArgs) (fresh : Fresh F) (d : Disk) :
    (Call.mk (.issue args) fresh).exec C A D cwd data d = Fs.exec (cmdIssue C D data args fresh) d := rfl

theorem runAll_append (calls calls' : List (Call F)) (d : Disk) :
    runAll C A D cwd data (calls ++ calls') d =
      runAll C A D cwd data calls' (runAll C A D cwd data calls d) :=
  List.foldl_append

theorem history_append (calls calls' : List (Call F)) (d : Disk) :
    history C A D cwd data (calls ++ calls') d = history C A D cwd data calls d ++
      history C A D cwd data calls' (runAll C A D cwd data calls d) := by
  induction calls generalizing d with
  | nil => rfl
  | cons call calls ih => rw [List.cons_append, history, ih, history, List.append_assoc]; rfl

/-- The tags that a history grants to a user. -/
def grantedTags (past : List Happening) (user : String) : List String :=
  past.flatMap fun
    | .issued user' attrs revocation => if user' = user then attrs.map revocation.tag else []
    | .stored .. => []

/-- The id of a stored package. -/
def Happening.packageId : Happening → Option String
  | .issued .. => none
  | .stored id .. => some id

/-- The package that was stored last under an id. -/
def lastStored (past : List Happening) (id : String) : Option Happening :=
  (past.filter fun e => e.packageId = some id).getLast?

theorem grantedTags_append (past past' : List Happening) (user : String) :
    grantedTags (past ++ past') user = grantedTags past user ++ grantedTags past' user :=
  List.flatMap_append

@[simp] theorem grantedTags_issued (user' user : String) (attrs : List String)
    (revocation : RevocationList) : grantedTags [.issued user' attrs revocation] user =
      if user' = user then attrs.map revocation.tag else [] :=
  List.append_nil _

@[simp] theorem grantedTags_stored (id policy : String) (plaintext : Bytes)
    (revocation : RevocationList) (user : String) :
    grantedTags [.stored id policy plaintext revocation] user = [] := rfl

@[simp] theorem lastStored_issued (user : String) (attrs : List String) (revocation : RevocationList)
    (id : String) : lastStored [.issued user attrs revocation] id = none := rfl

@[simp] theorem lastStored_stored (id' policy : String) (plaintext : Bytes)
    (revocation : RevocationList) (id : String) :
    lastStored [.stored id' policy plaintext revocation] id =
      if id' = id then some (.stored id' policy plaintext revocation) else none := by
  by_cases h : id' = id <;> simp [lastStored, Happening.packageId, h]

theorem lastStored_append (past past' : List Happening) (id : String) :
    lastStored (past ++ past') id = (lastStored past' id).or (lastStored past id) := by
  rw [lastStored, List.filter_append, List.getLast?_append]
  rfl

/-! ## Deployments with a history -/

/-- The keys and packages of a deployment are those of a history. -/
structure World.Tells (w : World F G₁ G₂ Gₜ) (past : List Happening) : Prop where
  keys : ∀ user, (w.keys user = none ∧ grantedTags past user = []) ∨
    ∃ usk attrs r, w.keys user = some usk ∧ Minted w.pp w.msk attrs r usk ∧
      ∀ t, t ∈ attrs ↔ t ∈ grantedTags past user
  packages : ∀ id policy plaintext revocation,
    lastStored past id = some (.stored id policy plaintext revocation) →
      ∃ filed rawTree, w.packages id = some filed ∧ policy.length < 2 ^ 64 ∧
        parse policy = .ok rawTree ∧
          Seals C A D w.pp (retagTree rawTree revocation) plaintext filed.package

namespace World.Tells

variable {C A D} {w : World F G₁ G₂ Gₜ} {past : List Happening} (h : w.Tells C A D past)
include h

omit [DecidableEq F]

theorem of_eq {w' : World F G₁ G₂ Gₜ} (hpp : w'.pp = w.pp) (hmsk : w'.msk = w.msk)
    (hkeys : w'.keys = w.keys) (hpackages : w'.packages = w.packages) : w'.Tells C A D past where
  keys := by
    rw [hpp, hmsk, hkeys]
    exact h.keys
  packages := by
    rw [hpp, hpackages]
    exact h.packages

theorem withParams {pp : PublicParams G₁ G₂ Gₜ} (hext : Extends w.pp pp) :
    (w.withParams pp).Tells C A D past where
  keys := by
    intro user
    rcases h.keys user with hnone | ⟨usk, attrs, r, hkey, hminted, hattrs⟩
    · exact Or.inl hnone
    · exact Or.inr ⟨usk, attrs, r, hkey, hminted.mono hext, hattrs⟩
  packages := by
    intro id policy plaintext revocation hlast
    obtain ⟨filed, rawTree, hfiled, hpolicy, hparse, hseals⟩ :=
      h.packages id policy plaintext revocation hlast
    exact ⟨filed, rawTree, hfiled, hpolicy, hparse, hseals.mono hext⟩

/-- A new key for what was granted before and for the attributes granted now. -/
theorem withKey (user : String) {new attrs : List String} {revocation : RevocationList} {r : F}
    {usk : UserSecretKey G₂} (hminted : Minted w.pp w.msk attrs r usk)
    (hattrs : ∀ t, t ∈ attrs ↔ t ∈ new.map revocation.tag ∨ t ∈ grantedTags past user) :
    (w.withKey user usk).Tells C A D (past ++ [.issued user new revocation]) where
  keys := by
    intro user'
    rw [World.keys_withKey, grantedTags_append]
    by_cases hu : user' = user
    · subst hu
      rw [if_pos rfl]
      refine Or.inr ⟨usk, attrs, r, rfl, hminted, fun t => ?_⟩
      rw [hattrs t, grantedTags_issued, if_pos rfl, List.mem_append, or_comm]
    · rw [if_neg hu, grantedTags_issued, if_neg (Ne.symm hu), List.append_nil]
      exact h.keys user'
  packages := by
    intro id policy plaintext revocation' hlast
    rw [lastStored_append] at hlast
    exact h.packages id policy plaintext revocation' hlast

/-- A new package. -/
theorem withPackage (id : String) (filed : Filed G₁) {policy : String} {plaintext : Bytes}
    {revocation : RevocationList} {rawTree : AccessTree} (hpolicy : policy.length < 2 ^ 64)
    (hparse : parse policy = .ok rawTree)
    (hseals : Seals C A D w.pp (retagTree rawTree revocation) plaintext filed.package) :
    (w.withPackage id filed).Tells C A D (past ++ [.stored id policy plaintext revocation]) where
  keys := by
    intro user
    rw [grantedTags_append, grantedTags_stored, List.append_nil]
    exact h.keys user
  packages := by
    intro id' policy' plaintext' revocation' hlast
    rw [lastStored_append] at hlast
    rw [World.packages_withPackage]
    by_cases hid : id' = id
    · subst hid
      rw [lastStored_stored, if_pos rfl, Option.some_or] at hlast
      obtain ⟨-, rfl, rfl, rfl⟩ := Happening.stored.inj (Option.some.inj hlast)
      rw [if_pos rfl]
      exact ⟨filed, rawTree, rfl, hpolicy, hparse, hseals⟩
    · rw [lastStored_stored, if_neg (Ne.symm hid), Option.none_or] at hlast
      rw [if_neg hid]
      exact h.packages id' policy' plaintext' revocation' hlast

end World.Tells

/-! ## One command -/

section Step

variable {C A D cwd data} {d : Disk} {w : World F G₁ G₂ Gₜ} {past : List Happening}

theorem done_of_error {call : Call F} {e : Failure String}
    (h : (call.exec C A D cwd data d).1 = .error e) : call.done C A D cwd data d = none := by
  rw [Call.done, h]

/-- Only issuing and encrypting do something for the users. -/
theorem done_eq_none {call : Call F} (hissue : ∀ args, call.command ≠ .issue args)
    (hencrypt : ∀ file policy, call.command ≠ .encrypt file policy) :
    call.done C A D cwd data d = none := by
  unfold Call.done
  split
  · cases hcommand : call.command with
    | issue args => exact absurd hcommand (hissue args)
    | encrypt file policy => exact absurd hcommand (hencrypt file policy)
    | _ => rfl
  · rfl

variable (hC : C.ReadsBack) (hX : D.HexReadsBack) (hD : D.ReadsShallow)
include hC hX hD

omit [DecidableEq F] in
/-- What a successful issue finds in a deployment. -/
theorem Represents.admits (h : Represents C D data d w) {args : IssueArgs}
    {input : IssueInput G₁ G₂ Gₜ F} (hadmits : Admits C D data args d input) :
    input.pp = w.pp ∧ input.msk = w.msk ∧ input.registry = w.registry ∧
      input.revocation = w.revocationList data := by
  have hsetup := hadmits.setup.symm.trans (h.setupOn_eq hC hX hD)
  obtain ⟨hpp, hmsk⟩ := Prod.mk.inj (Except.ok.inj hsetup)
  exact ⟨hpp, hmsk, Except.ok.inj (hadmits.registry.symm.trans (h.registryOn_eq hD)),
    Except.ok.inj (hadmits.revocation.symm.trans (h.revocationOn_eq hD))⟩

omit [DecidableEq F] in
/-- The names that an issue merges are the ones granted before. -/
theorem Represents.mem_existing (h : Represents C D data d w) (ht : w.Tells C A D past)
    {args : IssueArgs} (huser : '/' ∉ args.user.toList) {input : IssueInput G₁ G₂ Gₜ F}
    (hadmits : Admits C D data args d input) (t : String) :
    (∃ usk, input.existing = .ok usk ∧ t ∈ usk.attributes) ↔ t ∈ grantedTags past args.user := by
  have hexisting := hadmits.existing
  rcases ht.keys args.user with ⟨hnone, htags⟩ | ⟨usk, attrs, r, hkey, hminted, hattrs⟩
  · rw [h.userKeyOn_eq_err huser hnone] at hexisting
    rw [← Except.ok.inj hexisting, htags]
    simp
  · rw [h.userKeyOn_eq hC hX hD huser hkey] at hexisting
    rw [← Except.ok.inj hexisting, ← hattrs t, ← hminted.mem t]
    simp

variable (cwd)

theorem exists_represents_issue (h : Represents C D data d w) (ht : w.Tells C A D past)
    (args : IssueArgs) (huser : '/' ∉ args.user.toList) (fresh : Fresh F) :
    ∃ w', Represents C D data ((Call.mk (.issue args) fresh).exec C A D cwd data d).2 w' ∧
      w'.Tells C A D (past ++ ((Call.mk (.issue args) fresh).done C A D cwd data d).toList) ∧
      w'.msk = w.msk ∧ w'.registry = w.registry ∧ w'.revocation = w.revocation := by
  have hexec := exec_cmdIssue C D data args fresh d
  change (Call.mk (.issue args) fresh).exec C A D cwd data d = _ at hexec
  cases hkey : issueOutcome C D data args fresh d with
  | error e =>
    rw [hkey, Cmd.andThen_error] at hexec
    rw [done_of_error (congrArg Prod.fst hexec), hexec, Option.toList_none, List.append_nil]
    exact ⟨w, h, ht, rfl, rfl, rfl⟩
  | ok key =>
    rw [hkey, Cmd.andThen_ok] at hexec
    obtain ⟨input, hadmits, -, hmsk, -, -, ⟨calls, -, hpp⟩, r, hminted⟩ := issueOutcome_eq_ok hkey
    obtain ⟨hpp', hmsk', -, hrev⟩ := h.admits hC hX hD hadmits
    have hdone : (Call.mk (.issue args) fresh).done C A D cwd data d =
        some (.issued args.user (resolved input.claims) input.revocation) := by
      rw [Call.done, hexec, hadmits.revocation]
      simp only [hadmits.claims]
      rfl
    rw [hmsk'] at hmsk
    rw [hpp'] at hpp
    rw [hdone, hexec]
    have hdeployed : Deployed C w.msk key.pp := hpp ▸ h.deployed.registerAll calls
    refine ⟨_, h.afterIssue huser fresh hdeployed hmsk, ?_, rfl, rfl, rfl⟩
    have hext : Extends w.pp key.pp := hpp ▸ extends_registerAll w.pp calls
    rw [hmsk] at hminted
    have htells := (ht.withParams hext).withKey args.user hminted fun t => by
      rw [IssueInput.names, mem_mergeExisting, h.mem_existing hC hX hD ht huser hadmits]
    exact htells.of_eq rfl rfl rfl rfl

/-- **Issuing succeeds** in a deployment if the user is not revoked and the claims are permitted. -/
theorem Represents.exec_issue (h : Represents C D data d w) (ht : w.Tells C A D past)
    (hbeta : w.msk.beta ≠ 0) (args : IssueArgs) (huser : '/' ∉ args.user.toList)
    (hrevoked : (w.revocationList data).isUserRevoked args.user = false) {claims : List Claim}
    (hclaims : parseClaims args.flags args.texts args.numerics = .ok claims)
    (hpermitted : ∀ claim ∈ claims, w.registry.checkPermission args.authority claim = .ok ())
    (fresh : Fresh F) :
    ((Call.mk (.issue args) fresh).exec C A D cwd data d).1 = .ok () ∧
      (Call.mk (.issue args) fresh).done C A D cwd data d =
        some (.issued args.user (resolved claims) (w.revocationList data)) := by
  have hexisting : ∃ existing,
      (Cmd.caught (userKeyOn C D data args.user d) : Outcome String _) = .ok existing ∧
        ∀ usk, existing = .ok usk → ∀ a ∈ usk.attributes,
          a ∈ (resolved claims).map (w.revocationList data).tag ∨ a ∈ w.pp.attributes := by
    rcases ht.keys args.user with ⟨hnone, -⟩ | ⟨usk, attrs, r, hkey, hminted, -⟩
    · rw [h.userKeyOn_eq_err huser hnone]
      exact ⟨_, rfl, fun usk husk => by cases husk⟩
    · rw [h.userKeyOn_eq hC hX hD huser hkey]
      refine ⟨_, rfl, fun usk' husk a ha => ?_⟩
      obtain rfl := Except.ok.inj husk
      obtain ⟨share, hshare⟩ := HashMap.exists_lookup_of_mem ha
      obtain ⟨c, rJ, hc, -⟩ := hminted.component a share hshare
      exact Or.inr (HashMap.mem_of_lookup hc)
  obtain ⟨existing, hexisting, hregistered⟩ := hexisting
  have hadmits : Admits C D data args d
      ⟨w.pp, w.msk, w.registry, w.revocationList data, claims, existing⟩ :=
    ⟨h.setupOn_eq hC hX hD, h.registryOn_eq hD, h.revocationOn_eq hD, hrevoked, hclaims, hpermitted,
      hexisting⟩
  obtain ⟨key, hkey⟩ := exists_issueOutcome fresh hadmits hbeta hregistered
  have hexec := exec_cmdIssue C D data args fresh d
  change (Call.mk (.issue args) fresh).exec C A D cwd data d = _ at hexec
  rw [hkey, Cmd.andThen_ok] at hexec
  refine ⟨congrArg Prod.fst hexec, ?_⟩
  rw [Call.done, hexec, h.revocationOn_eq hD]
  simp only [hclaims]
  rfl

/-- **Encrypting succeeds** in a deployment if the policy parses and the file can be read. -/
theorem Represents.done_encrypt (hA : A.Correct) (h : Represents C D data d w) (file : String)
    {policy : String} {rawTree : AccessTree} (hparse : parse policy = .ok rawTree) {plaintext : Bytes}
    (hfile : cwd.join file ≠ setupPath data) (hread : d.read (cwd.join file) = .ok plaintext)
    (fresh : Fresh F) :
    (Call.mk (.encrypt file policy) fresh).done C A D cwd data d =
      some (.stored (newId D fresh.stamp) policy plaintext (w.revocationList data)) := by
  obtain ⟨prepared, hprepared⟩ := exists_encryptOutcome fresh (h.setupOn_eq hC hX hD)
    (h.revocationOn_eq hD) hparse
  obtain ⟨pp, revocation, rawTree', -, -, -, -, calls, hcalls, hpp⟩ := encryptOutcome_eq_ok hprepared
  have hsaved : (d.write (setupPath data) (setupBytes C D prepared.pp prepared.msk)).read
      (cwd.join file) = .ok plaintext := by
    rw [Disk.read_congr (Disk.lookup_write_ne hfile d _), hread]
  have hleaves : ∀ a ∈ prepared.tree.leaves, a ∈ prepared.pp.attributes := by
    intro a ha
    rw [hpp, mem_registerAll, hcalls]
    exact Or.inl ha
  obtain ⟨package, hpackage⟩ := exists_sealOutcome hA policy fresh hsaved hleaves
  have hexec := exec_cmdEncrypt C A D cwd data file policy fresh d
  change (Call.mk (.encrypt file policy) fresh).exec C A D cwd data d = _ at hexec
  rw [hprepared, Cmd.andThen_ok, hpackage, Cmd.andThen_ok] at hexec
  rw [Call.done, hexec, h.revocationOn_eq hD]
  simp only [inputOn, hprepared, ok_bind, hsaved]
  rfl

theorem exists_represents_encrypt (h : Represents C D data d w) (ht : w.Tells C A D past)
    (file : String) {policy : String} (hpolicy : policy.length < 2 ^ 64) (fresh : Fresh F) :
    ∃ w', Represents C D data ((Call.mk (.encrypt file policy) fresh).exec C A D cwd data d).2 w' ∧
      w'.Tells C A D
        (past ++ ((Call.mk (.encrypt file policy) fresh).done C A D cwd data d).toList) ∧
      w'.msk = w.msk := by
  have hexec := exec_cmdEncrypt C A D cwd data file policy fresh d
  change (Call.mk (.encrypt file policy) fresh).exec C A D cwd data d = _ at hexec
  cases hprepared : encryptOutcome C D data policy fresh d with
  | error e =>
    rw [hprepared, Cmd.andThen_error] at hexec
    rw [done_of_error (congrArg Prod.fst hexec), hexec, Option.toList_none, List.append_nil]
    exact ⟨w, h, ht, rfl⟩
  | ok prepared =>
    obtain ⟨pp, revocation, rawTree, hsetup, hrev, hparse, htree, calls, -, hpp⟩ :=
      encryptOutcome_eq_ok hprepared
    obtain ⟨hpp', hmsk⟩ :=
      Prod.mk.inj (Except.ok.inj (hsetup.symm.trans (h.setupOn_eq hC hX hD)))
    rw [hpp'] at hpp
    have hsaved := h.setup (hpp ▸ h.deployed.registerAll calls : Deployed C w.msk prepared.pp)
    rw [← hmsk] at hsaved
    have htells := ht.withParams (hpp ▸ extends_registerAll w.pp calls : Extends w.pp prepared.pp)
    rw [hprepared, Cmd.andThen_ok] at hexec
    cases hsealed : sealOutcome C A D cwd file policy fresh prepared
        (d.write (setupPath data) (setupBytes C D prepared.pp prepared.msk)) with
    | error e =>
      rw [hsealed, Cmd.andThen_error] at hexec
      rw [done_of_error (congrArg Prod.fst hexec), hexec, Option.toList_none, List.append_nil]
      exact ⟨_, hsaved, htells, rfl⟩
    | ok package =>
      obtain ⟨plaintext, hread, hseals⟩ := sealOutcome_eq_ok hsealed
      rw [hsealed, Cmd.andThen_ok] at hexec
      have hdone : (Call.mk (.encrypt file policy) fresh).done C A D cwd data d =
          some (.stored (newId D fresh.stamp) policy plaintext revocation) := by
        rw [Call.done, hexec, hrev]
        simp only [inputOn, hprepared, ok_bind, hread]
        rfl
      rw [hdone, hexec]
      rw [htree] at hseals
      have hfits : package.keyCiphertext.tree.Fits policy.length := by
        rw [hseals.tree_eq]
        exact (parse_fits hparse).of_gates_eq (gates_retagTree rawTree revocation)
      refine ⟨_, hsaved.afterEncrypt hX file policy fresh ⟨hfits.thresholdsFit hpolicy, ?_⟩, ?_, rfl⟩
      · obtain ⟨dek, t, rng, henc, -⟩ := hseals
        exact henc.index_lt (henc.tree_eq ▸ hfits.childrenLt hpolicy)
      · have hstored := htells.withPackage (newId D fresh.stamp) ⟨package,
          PackageStore.manifestBytes D (storedName file) package fresh.stamp⟩ hpolicy hparse hseals
        exact hstored.of_eq rfl rfl rfl rfl

variable (A)

omit hC hX in
theorem Represents.registerAuthority (h : Represents C D data d w) (name controls : String)
    (fresh : Fresh F) :
    Represents C D data ((Call.mk (.registerAuthority name controls) fresh).exec C A D cwd data d).2
      (w.withRegistry (w.registry.register name (splitControls controls))) := by
  have hexec := exec_cmdRegisterAuthority D data name controls d
  change (Call.mk (.registerAuthority name controls) fresh).exec C A D cwd data d = _ at hexec
  rw [h.registryOn_eq hD, Cmd.andThen_ok] at hexec
  rw [hexec]
  exact h.registry _

omit hC hX in
theorem Represents.revokeAttribute (h : Represents C D data d w) (attr : String) (fresh : Fresh F) :
    Represents C D data ((Call.mk (.revokeAttribute attr) fresh).exec C A D cwd data d).2
      ((w.withRevocation ((w.revocationList data).bumped attr).state).logged D
        (revokeAttributeEvent attr ((w.revocationList data).currentEpoch attr + 1) fresh)) := by
  have hexec := exec_cmdRevokeAttribute D data attr fresh d
  change (Call.mk (.revokeAttribute attr) fresh).exec C A D cwd data d = _ at hexec
  rw [h.revocationOn_eq hD, Cmd.andThen_ok] at hexec
  rw [hexec]
  exact (h.revocation _).event _

omit hC hX in
theorem Represents.revokeUser (h : Represents C D data d w) (user : String) (fresh : Fresh F) :
    Represents C D data ((Call.mk (.revokeUser user) fresh).exec C A D cwd data d).2
      ((w.withRevocation ((w.revocationList data).withUser user).state).logged D
        (revokeUserEvent user fresh)) := by
  have hexec := exec_cmdRevokeUser D data user fresh d
  change (Call.mk (.revokeUser user) fresh).exec C A D cwd data d = _ at hexec
  rw [h.revocationOn_eq hD, Cmd.andThen_ok] at hexec
  have hpath : ((w.revocationList data).withUser user).path = revocationPath data :=
    RevocationList.path_withUser _ _
  rw [hexec, hpath]
  exact (h.revocation _).event _

variable {A}

omit hC hX hD in
theorem exists_represents_decrypt (h : Represents C D data d w) (ht : w.Tells C A D past)
    (id user : String) {out : String} (hout : ¬ Own data (cwd.join out)) (fresh : Fresh F) :
    ∃ w', Represents C D data ((Call.mk (.decrypt id user out) fresh).exec C A D cwd data d).2 w' ∧
      w'.Tells C A D past ∧ w'.msk = w.msk := by
  have hexec := exec_cmdDecrypt C A D cwd data id user out fresh d
  change (Call.mk (.decrypt id user out) fresh).exec C A D cwd data d = _ at hexec
  have hdir := h.packagesDir
  rw [hexec]
  cases keyOutcome C D data user d with
  | error e => exact ⟨w, h, ht, rfl⟩
  | ok key =>
    rw [Cmd.andThen_ok]
    cases storedOn C D data id (d.createDirAll (packagesDir data)) with
    | error e => exact ⟨w, hdir, ht, rfl⟩
    | ok package =>
      rw [Cmd.andThen_ok]
      rcases Envelope.open C A D key.1 key.2 package with (e | msg) | plaintext
      · exact ⟨_, hdir.event _, ht.of_eq rfl rfl rfl rfl, rfl⟩
      · exact ⟨w, hdir, ht, rfl⟩
      · exact ⟨_, (hdir.write_of_not_own hout plaintext).event _, ht.of_eq rfl rfl rfl rfl, rfl⟩

end Step

/-! ## Whole runs -/

/-- A command after the setup that works on its own files: the name of a user does not lead out of the
directory of the keys, a decrypted document does not replace a file of the deployment, and a policy
has a length that a string can have. -/
def Call.Regular (call : Call F) : Prop :=
  match call.command with
  | .setup => False
  | .issue args => '/' ∉ args.user.toList
  | .encrypt _ policy => policy.length < 2 ^ 64
  | .decrypt _ _ out => ¬ Own data (cwd.join out)
  | _ => True

section Run

variable {C A D cwd data}
variable (hC : C.ReadsBack) (hX : D.HexReadsBack) (hD : D.ReadsShallow)
include hC hX hD

/-- **One command** keeps a deployment with its history. -/
theorem exists_represents_step {d : Disk} {w : World F G₁ G₂ Gₜ} {past : List Happening}
    (h : Represents C D data d w) (ht : w.Tells C A D past) {call : Call F}
    (hcall : call.Regular cwd data) :
    ∃ w', Represents C D data (call.exec C A D cwd data d).2 w' ∧
      w'.Tells C A D (past ++ (call.done C A D cwd data d).toList) ∧ w'.msk = w.msk := by
  obtain ⟨command, fresh⟩ := call
  have hquiet : (∀ args, command ≠ .issue args) → (∀ file policy, command ≠ .encrypt file policy) →
      past ++ ((Call.mk command fresh).done C A D cwd data d).toList = past := by
    intro hissue hencrypt
    rw [done_eq_none hissue hencrypt, Option.toList_none, List.append_nil]
  cases command with
  | setup => cases hcall
  | issue args =>
    obtain ⟨w', h', ht', hmsk, -⟩ := exists_represents_issue cwd hC hX hD h ht args hcall fresh
    exact ⟨w', h', ht', hmsk⟩
  | encrypt file policy => exact exists_represents_encrypt cwd hC hX hD h ht file hcall fresh
  | registerAuthority name controls =>
    rw [hquiet (by simp) (by simp)]
    exact ⟨_, h.registerAuthority A cwd hD name controls fresh, ht.of_eq rfl rfl rfl rfl, rfl⟩
  | decrypt id user out =>
    rw [hquiet (by simp) (by simp)]
    exact exists_represents_decrypt cwd h ht id user hcall fresh
  | revokeAttribute attr =>
    rw [hquiet (by simp) (by simp)]
    exact ⟨_, h.revokeAttribute A cwd hD attr fresh, ht.of_eq rfl rfl rfl rfl, rfl⟩
  | revokeUser user =>
    rw [hquiet (by simp) (by simp)]
    exact ⟨_, h.revokeUser A cwd hD user fresh, ht.of_eq rfl rfl rfl rfl, rfl⟩

/-- **A run** keeps a deployment with its history. -/
theorem exists_represents_runAll {d : Disk} {w : World F G₁ G₂ Gₜ} {past : List Happening}
    (h : Represents C D data d w) (ht : w.Tells C A D past) {calls : List (Call F)}
    (hcalls : ∀ call ∈ calls, call.Regular cwd data) :
    ∃ w', Represents C D data (runAll C A D cwd data calls d) w' ∧
      w'.Tells C A D (past ++ history C A D cwd data calls d) ∧ w'.msk = w.msk := by
  induction calls generalizing d w past with
  | nil => exact ⟨w, h, by rwa [history, List.append_nil], rfl⟩
  | cons call calls ih =>
    obtain ⟨w₁, h₁, ht₁, hmsk₁⟩ := exists_represents_step hC hX hD h ht (hcalls call (by simp))
    obtain ⟨w₂, h₂, ht₂, hmsk₂⟩ := ih h₁ ht₁ fun call hcall => hcalls call (by simp [hcall])
    refine ⟨w₂, h₂, ?_, hmsk₂.trans hmsk₁⟩
    rwa [history, ← List.append_assoc]

omit hC hX hD [DecidableEq F] in
/-- A deployment begins without keys and packages. -/
theorem tells_start (fresh : Fresh F) : (World.start C D fresh : World F G₁ G₂ Gₜ).Tells C A D [] where
  keys := fun user => Or.inl ⟨rfl, rfl⟩
  packages := fun id policy plaintext revocation hlast => by cases hlast

/-- A setup and a run after it. -/
theorem exists_represents_setup {d : Disk} (hd : Vacant data d) (fresh : Fresh F)
    {calls : List (Call F)} (hcalls : ∀ call ∈ calls, call.Regular cwd data) :
    ∃ w : World F G₁ G₂ Gₜ,
      Represents C D data (runAll C A D cwd data (⟨.setup, fresh⟩ :: calls) d) w ∧
      w.Tells C A D (history C A D cwd data (⟨.setup, fresh⟩ :: calls) d) ∧
      w.msk = (setup C fresh.scalars).1.2 := by
  rw [history, done_eq_none (by simp) (by simp)]
  exact exists_represents_runAll hC hX hD (represents_cmdSetup C D hd fresh)
    (tells_start fresh) hcalls

end Run

/-! ## A small deployment -/

def exampleCwd : Path := ⟨["home"]⟩

def exampleData : Path := ⟨["data"]⟩

def exampleFresh : Fresh Scalar where
  scalars := fun _ => 1
  dek := zeroBytes 32
  fileNonce := zeroBytes 12
  wrapNonce := zeroBytes 12
  stamp := exampleStamp
  timestampUnix := 0

def issueToAlice (attr : String) : IssueArgs := ⟨"root", "alice", [attr], [], []⟩

/-- An authority without restrictions, and a key for the attribute `a`. -/
def exampleRun : List (Call Scalar) :=
  [⟨.setup, exampleFresh⟩, ⟨.registerAuthority "root" "", exampleFresh⟩,
    ⟨.issue (issueToAlice "a"), exampleFresh⟩]

/-- The key that the run issues. -/
def exampleIssued : Happening := .issued "alice" ["a"] ⟨revocationPath exampleData, default⟩

theorem vacant_emptyDisk (data : Path) : Vacant data emptyDisk :=
  ⟨rfl, List.not_mem_nil⟩

/-- An authority without restrictions issues a first key. -/
theorem exists_represents_firstIssue (args : IssueArgs) (hauthority : args.authority = "root")
    (huser : '/' ∉ args.user.toList) {claims : List Claim}
    (hclaims : parseClaims args.flags args.texts args.numerics = .ok claims) :
    ∃ w : World Scalar Scalar Scalar Scalar,
      Represents exponents serdeJsonUnlimited exampleData
        (runAll exponents boxes serdeJsonUnlimited exampleCwd exampleData
          [⟨.setup, exampleFresh⟩, ⟨.registerAuthority "root" "", exampleFresh⟩,
            ⟨.issue args, exampleFresh⟩] emptyDisk) w ∧
      history exponents boxes serdeJsonUnlimited exampleCwd exampleData
        [⟨.setup, exampleFresh⟩, ⟨.registerAuthority "root" "", exampleFresh⟩,
          ⟨.issue args, exampleFresh⟩] emptyDisk =
        [.issued args.user (resolved claims) ⟨revocationPath exampleData, default⟩] ∧
      w.Tells exponents boxes serdeJsonUnlimited
        [.issued args.user (resolved claims) ⟨revocationPath exampleData, default⟩] ∧
      w.msk = ⟨1, 1⟩ ∧ w.registry = AuthorityRegistry.new.register "root" [] ∧
      w.revocation = none := by
  have hD := readsBack_serdeJsonUnlimited.shallow
  have hX := hexReadsBack_serdeJsonUnlimited
  have hstart := represents_cmdSetup exponents serdeJsonUnlimited (vacant_emptyDisk exampleData)
    exampleFresh
  have hregistered := hstart.registerAuthority boxes exampleCwd hD "root" "" exampleFresh
  rw [show splitControls "" = [] from rfl] at hregistered
  have htells : World.Tells exponents boxes serdeJsonUnlimited
      ((World.start exponents serdeJsonUnlimited exampleFresh).withRegistry
        (AuthorityRegistry.new.register "root" [])) [] :=
    (tells_start exampleFresh).of_eq rfl rfl rfl rfl
  have hpermitted : ∀ claim ∈ claims,
      (AuthorityRegistry.new.register "root" []).checkPermission args.authority claim = .ok () := by
    intro claim _
    rw [hauthority]
    exact checkPermission_eq_ok.2 ⟨⟨"root", []⟩, AList.lookup_insert _, Or.inl rfl⟩
  obtain ⟨-, hdone⟩ := hregistered.exec_issue exampleCwd readsBack_exponents hX hD htells
    (one_ne_zero : (1 : Scalar) ≠ 0) args huser rfl hclaims hpermitted exampleFresh
  obtain ⟨w, hw, htells, hmsk, hregistry, hrevocation⟩ := exists_represents_issue exampleCwd
    readsBack_exponents hX hD hregistered htells args huser exampleFresh
  rw [hdone] at htells
  refine ⟨w, ?_, ?_, htells, hmsk, hregistry, hrevocation⟩
  · rw [runAll_cons, exec_setup, runAll_cons, runAll_cons, runAll_nil]
    exact hw
  · rw [history, done_eq_none (by simp) (by simp), exec_setup, history,
      done_eq_none (by simp) (by simp), history, hdone]
    rfl

/-- The deployment after the run. -/
theorem exists_represents_exampleRun : ∃ w : World Scalar Scalar Scalar Scalar,
    Represents exponents serdeJsonUnlimited exampleData
      (runAll exponents boxes serdeJsonUnlimited exampleCwd exampleData exampleRun emptyDisk) w ∧
    history exponents boxes serdeJsonUnlimited exampleCwd exampleData exampleRun emptyDisk =
      [exampleIssued] ∧
    w.Tells exponents boxes serdeJsonUnlimited [exampleIssued] ∧ w.msk.alpha ≠ 0 ∧ w.msk.beta ≠ 0 ∧
    w.registry = AuthorityRegistry.new.register "root" [] ∧ w.revocation = none := by
  obtain ⟨w, h, hpast, ht, hmsk, hregistry, hrevocation⟩ :=
    exists_represents_firstIssue (issueToAlice "a") rfl (by decide) rfl
  have hone : (1 : Scalar) ≠ 0 := one_ne_zero
  exact ⟨w, h, hpast, ht, by rwa [hmsk], by rwa [hmsk], hregistry, hrevocation⟩

/-- The deployment after the run, with the key of its user. -/
theorem exists_key_exampleRun : ∃ (w : World Scalar Scalar Scalar Scalar) (usk : UserSecretKey Scalar),
    Represents exponents serdeJsonUnlimited exampleData
      (runAll exponents boxes serdeJsonUnlimited exampleCwd exampleData exampleRun emptyDisk) w ∧
    userKeyOn exponents serdeJsonUnlimited exampleData "alice"
      (runAll exponents boxes serdeJsonUnlimited exampleCwd exampleData exampleRun emptyDisk) = .ok usk ∧
    (∀ t, t ∈ usk.attributes ↔ t = "a@epoch0") ∧ w.msk.beta ≠ 0 ∧
    w.registry = AuthorityRegistry.new.register "root" [] ∧ w.revocation = none := by
  obtain ⟨w, h, -, htells, -, hbeta, hregistry, hrevocation⟩ := exists_represents_exampleRun
  rcases htells.keys "alice" with ⟨-, hnone⟩ | ⟨usk, attrs, r, hkey, hminted, hattrs⟩
  · cases hnone
  refine ⟨w, usk, h, h.userKeyOn_eq readsBack_exponents hexReadsBack_serdeJsonUnlimited
    readsBack_serdeJsonUnlimited.shallow (by decide) hkey, fun t => ?_, hbeta, hregistry, hrevocation⟩
  rw [hminted.mem, hattrs, show grantedTags [exampleIssued] "alice" = ["a@epoch0"] by decide,
    List.mem_singleton]

end SecureABE.Cli
