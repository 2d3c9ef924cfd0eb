import SecureABE.Cli.Linked
import SecureABE.Cli.Mirroring

/-!
# The command line refines the monitor

After a setup in an empty directory, the commands reply what the monitor replies, errors and their texts
included, and the users' files are the monitor's (`outcomes_eq_run`). One lemma for each command shows
that it and the monitor agree (`Agrees`), and the run follows by induction.
-/

namespace SecureABE.Cli

open Rust SecureABE.Core SecureABE.Policy SecureABE.Revocation SecureABE.Authorities SecureABE.Audit
  SecureABE.Envelope SecureABE.Storage

variable {F G₁ G₂ Gₜ : Type} [Field F] [DecidableEq F] [AddCommGroup G₁] [Module F G₁]
  [AddCommGroup G₂] [Module F G₂] [AddCommGroup Gₜ] [Module F Gₜ]
variable {C : Curve F G₁ G₂ Gₜ} {A : Cipher} {D : Codec} {cwd data : Path}

/-! ## One command -/

section Step

variable (cwd) (hC : C.ReadsBack) (hX : D.HexReadsBack) (hD : D.ReadsShallow) {d : Disk}
  {w : World F G₁ G₂ Gₜ} {past : List Happening} {m : Monitor}

variable (C A D data) in
/-- The command and the monitor reply the same, and go on alike. -/
def Agrees (call : Call F) (d : Disk) (w : World F G₁ G₂ Gₜ) (m : Monitor) : Prop :=
  let id := newId D call.fresh.stamp
  (call.exec C A D cwd data d).1 = (m.step cwd call.command id).1 ∧
    ∃ w' past', Mirrors C A D data (call.exec C A D cwd data d).2 w' past'
      (m.step cwd call.command id).2 ∧ w'.msk = w.msk

include hX in
/-- A command that writes neither packages nor files of the users. -/
theorem Mirrors.quiet (h : Mirrors C A D data d w past m) {call : Call F} (hcall : call.Regular cwd data)
    (hencrypt : ∀ file policy, call.command ≠ .encrypt file policy)
    (hdecrypt : ∀ id user out, call.command ≠ .decrypt id user out) :
    (∀ id, w.packages id = none →
      (call.exec C A D cwd data d).2.has (data.under ["packages", id]) = false) ∧
    ∀ p, ¬ Own data p → (call.exec C A D cwd data d).2.files.lookup p = m.documents p := by
  refine ⟨fun id hid => ?_, fun p hp => ?_⟩
  · have htakes : ¬ call.Takes D id := fun ⟨⟨file, policy, hcommand⟩, _⟩ => hencrypt file policy hcommand
    rw [has_packageDir_exec hX hcall htakes]
    exact h.stray id hid
  · rw [lookup_exec_of_not_own hX hcall hdecrypt hp]
    exact h.documents p hp

include hX hD in
theorem Mirrors.registerAuthority (h : Mirrors C A D data d w past m) (name controls : String)
    (fresh : Fresh F) : Agrees C A D cwd data ⟨.registerAuthority name controls, fresh⟩ d w m := by
  have hexec := exec_cmdRegisterAuthority D data name controls d
  change (Call.mk (.registerAuthority name controls) fresh).exec C A D cwd data d = _ at hexec
  rw [h.represents.registryOn_eq hD, Cmd.andThen_ok] at hexec
  have hregular : (Call.mk (.registerAuthority name controls) fresh).Regular cwd data := trivial
  obtain ⟨hstray, hdocuments⟩ := h.quiet cwd hX hregular (by simp) (by simp)
  refine ⟨congrArg Prod.fst hexec, w.withRegistry (w.registry.register name (splitControls controls)),
    past, ?_, rfl⟩
  refine ⟨h.represents.registerAuthority A cwd hD name controls fresh, h.tells.of_eq rfl rfl rfl rfl,
    fun name' => ?_, h.epoch, h.revoked, h.grants, h.deposits, hstray, hdocuments⟩
  change Function.update m.controls name (some (splitControls controls)) name' =
    ((w.registry.authorities.insert name _).lookup name').map Authority.controls
  by_cases hname : name' = name
  · subst hname
    rw [Function.update_self, AList.lookup_insert]
    rfl
  · rw [Function.update_of_ne hname, AList.lookup_insert_ne hname, h.controls]

include hX hD in
theorem Mirrors.revokeAttribute (h : Mirrors C A D data d w past m) (attr : String) (fresh : Fresh F) :
    Agrees C A D cwd data ⟨.revokeAttribute attr, fresh⟩ d w m := by
  have hexec := exec_cmdRevokeAttribute D data attr fresh d
  change (Call.mk (.revokeAttribute attr) fresh).exec C A D cwd data d = _ at hexec
  rw [h.represents.revocationOn_eq hD, Cmd.andThen_ok] at hexec
  have hregular : (Call.mk (.revokeAttribute attr) fresh).Regular cwd data := trivial
  obtain ⟨hstray, hdocuments⟩ := h.quiet cwd hX hregular (by simp) (by simp)
  refine ⟨congrArg Prod.fst hexec, _, past, ⟨h.represents.revokeAttribute A cwd hD attr fresh,
    h.tells.of_eq rfl rfl rfl rfl, h.controls, ?_, h.revoked, h.grants, h.deposits, hstray, hdocuments⟩, rfl⟩
  change Function.update m.epoch attr (m.epoch attr + 1) =
    ((w.revocationList data).bumped attr).currentEpoch
  funext a
  by_cases ha : a = attr
  · subst ha
    rw [Function.update_self, RevocationList.currentEpoch_bumped_self, h.epoch]
  · rw [Function.update_of_ne ha, RevocationList.currentEpoch_bumped_ne ha, h.epoch]

include hX hD in
theorem Mirrors.revokeUser (h : Mirrors C A D data d w past m) (user : String) (fresh : Fresh F) :
    Agrees C A D cwd data ⟨.revokeUser user, fresh⟩ d w m := by
  have hexec := exec_cmdRevokeUser D data user fresh d
  change (Call.mk (.revokeUser user) fresh).exec C A D cwd data d = _ at hexec
  rw [h.represents.revocationOn_eq hD, Cmd.andThen_ok] at hexec
  have hregular : (Call.mk (.revokeUser user) fresh).Regular cwd data := trivial
  obtain ⟨hstray, hdocuments⟩ := h.quiet cwd hX hregular (by simp) (by simp)
  refine ⟨congrArg Prod.fst hexec, _, past, ⟨h.represents.revokeUser A cwd hD user fresh,
    h.tells.of_eq rfl rfl rfl rfl, h.controls, ?_, ?_, h.grants, h.deposits, hstray, hdocuments⟩, rfl⟩
  · change m.epoch = ((w.revocationList data).withUser user).currentEpoch
    funext a
    rw [RevocationList.currentEpoch_withUser, h.epoch]
  · change Function.update m.revoked user true = ((w.revocationList data).withUser user).isUserRevoked
    funext user'
    rw [Bool.eq_iff_iff, RevocationList.isUserRevoked_withUser, ← h.revoked]
    by_cases hu : user' = user
    · subst hu
      simp
    · rw [Function.update_of_ne hu, or_iff_left (Ne.symm hu)]

/-- A command that both refuse. -/
theorem Mirrors.refused (h : Mirrors C A D data d w past m) {call : Call F} {e : Failure String}
    (hexec : call.exec C A D cwd data d = (.error e, d))
    (hrespond : m.respond cwd call.command (newId D call.fresh.stamp) = .error e) :
    Agrees C A D cwd data call d w m := by
  have hstep : m.step cwd call.command (newId D call.fresh.stamp) = (.error e, m) := by
    rw [Monitor.step, hrespond]
  unfold Agrees
  dsimp only
  rw [hexec, hstep]
  exact ⟨rfl, w, past, h, rfl⟩

include hC hX hD in
/-- A user who is not revoked is granted permitted claims. -/
theorem Mirrors.granted (h : Mirrors C A D data d w past m) (hbeta : w.msk.beta ≠ 0) {args : IssueArgs}
    (huser : '/' ∉ args.user.toList) (hrevoked : (w.revocationList data).isUserRevoked args.user = false)
    {claims : List Claim} (hclaims : parseClaims args.flags args.texts args.numerics = .ok claims)
    (hpermitted : ∀ claim ∈ claims, w.registry.checkPermission args.authority claim = .ok ())
    (fresh : Fresh F) : ((Call.mk (.issue args) fresh).exec C A D cwd data d).1 = .ok () ∧
      ∃ w' past', Mirrors C A D data ((Call.mk (.issue args) fresh).exec C A D cwd data d).2 w' past'
        (m.grant args.user ((resolved claims).map fun a => (a, m.epoch a))) ∧ w'.msk = w.msk := by
  have hregular : (Call.mk (.issue args) fresh).Regular cwd data := huser
  obtain ⟨hok, hdone⟩ := h.represents.exec_issue cwd hC hX hD h.tells hbeta args huser hrevoked hclaims
    hpermitted fresh
  obtain ⟨w', h', ht', hmsk, hregistry, hrevocation⟩ := exists_represents_issue cwd hC hX hD
    h.represents h.tells args huser fresh
  rw [hdone] at ht'
  obtain ⟨hstray, hdocuments⟩ := h.quiet cwd hX hregular (by simp) (by simp)
  have hview : ∀ f, f ∉ (Call.mk (.issue args) fresh).files D →
      view data ((Call.mk (.issue args) fresh).exec C A D cwd data d).2 f = view data d f :=
    fun f hf => view_exec hX (hregular.avoids f) hf d
  -- the user has a key, and the keys of the others are where they were
  have hkey : (w'.keys args.user).isSome := by
    obtain ⟨key, hkey⟩ : ∃ key, issueOutcome C D data args fresh d = .ok key := by
      rw [exec_issue, exec_cmdIssue] at hok
      cases hkey : issueOutcome C D data args fresh d with
      | error e =>
        rw [hkey] at hok
        cases hok
      | ok key => exact ⟨key, rfl⟩
    have hafter : ∃ log, view data (afterIssue C D data args fresh key d) = _ :=
      view_afterIssue huser fresh key
    obtain ⟨log, hafter⟩ := hafter
    have hcontents := congrFun h'.view (.key args.user)
    rw [exec_issue, exec_cmdIssue, hkey, Cmd.andThen_ok, hafter,
      Function.update_of_ne (by simp), Function.update_self] at hcontents
    have hsome : (w'.keys args.user).map (userKeyBytes C D) = some _ := hcontents.symm
    obtain ⟨usk, husk, -⟩ := Option.map_eq_some_iff.1 hsome
    rw [husk]
    rfl
  have hkeys : ∀ user, user ≠ args.user → (w'.keys user).isSome = (w.keys user).isSome :=
    fun user hu => isSome_keys_of_view h.represents h'
      (hview _ (by simpa [Call.files] using hu))
  have hpackages : ∀ id, (w'.packages id).isSome = (w.packages id).isSome :=
    fun id => isSome_packages_of_view h.represents h' (hview _ (by simp [Call.files]))
  refine ⟨hok, w', _, ⟨h', ht', ?_, ?_, ?_, fun user => ?_, fun id => ?_, fun id hid => ?_,
    hdocuments⟩, hmsk⟩
  · rw [hregistry]
    exact h.controls
  · rw [World.revocationList, hrevocation]
    exact h.epoch
  · rw [World.revocationList, hrevocation]
    exact h.revoked
  · change Function.update m.grants args.user _ user = _
    rw [Option.toList_some, grantsOf_append]
    by_cases hu : user = args.user
    · subst hu
      have hold : (m.grants args.user).getD [] = grantsOf past args.user := by
        rw [h.grants]
        cases hold : w.keys args.user with
        | none => exact (h.grantsOf_eq_nil hold).symm
        | some usk => rfl
      have hnew : grantsOf [.issued args.user (resolved claims) (w.revocationList data)] args.user =
          (resolved claims).map fun a => (a, m.epoch a) := by
        rw [grantsOf, List.flatMap_singleton, h.epoch]
        exact if_pos rfl
      rw [Function.update_self, if_pos hkey, hold, hnew]
    · have hnone : grantsOf [.issued args.user (resolved claims) (w.revocationList data)] user = [] := by
        rw [grantsOf, List.flatMap_singleton]
        exact if_neg (Ne.symm hu)
      rw [Function.update_of_ne hu, h.grants, hkeys user hu, hnone, List.append_nil]
  · refine (h.deposits id).imp (And.imp_right (eq_none_iff (hpackages id)).2) ?_
    rintro ⟨deposit, policy, revocation, hdeposit, hlast, hrest⟩
    refine ⟨deposit, policy, revocation, hdeposit, ?_, hrest⟩
    rw [lastStored_append, Option.toList_some, lastStored_issued, Option.none_or, hlast]
  · exact hstray id ((eq_none_iff (hpackages id)).1 hid)

include hC hX hD in
theorem Mirrors.issue (h : Mirrors C A D data d w past m) (hbeta : w.msk.beta ≠ 0) (args : IssueArgs)
    (huser : '/' ∉ args.user.toList) (fresh : Fresh F) :
    Agrees C A D cwd data ⟨.issue args, fresh⟩ d w m := by
  have houtcome : issueOutcome C D data args fresh d =
      if (w.revocationList data).isUserRevoked args.user = true then
        Outcome.err (revokedMessage args.user)
      else (do
        let claims ← parseClaims args.flags args.texts args.numerics
        let st ← grantClaims w.registry (w.revocationList data) args.authority claims
          { pp := w.pp, flatAttrs := [], rng := fresh.scalars }
        let existing ← Cmd.caught (userKeyOn C D data args.user d)
        mintKey w.msk args.user st existing) := by
    rw [issueOutcome, h.represents.setupOn_eq hC hX hD, h.represents.registryOn_eq hD,
      h.represents.revocationOn_eq hD]
    rfl
  have hissue : m.issue args =
      if (w.revocationList data).isUserRevoked args.user = true then
        Outcome.err (revokedMessage args.user)
      else (do
        let claims ← parseClaims args.flags args.texts args.numerics
        Outcome.mapErr AuthorityError.toText (m.permitAll args.authority claims)
        .ok (m.grant args.user ((resolved claims).map fun a => (a, m.epoch a)))) := by
    rw [Monitor.issue, h.revoked]
    rfl
  have hrefused : ∀ e, issueOutcome C D data args fresh d = .error e → m.issue args = .error e →
      Agrees C A D cwd data ⟨.issue args, fresh⟩ d w m := by
    intro e he hm
    refine h.refused cwd ?_ hm
    rw [exec_issue, exec_cmdIssue, he]
    rfl
  by_cases hrevoked : (w.revocationList data).isUserRevoked args.user = true
  · rw [if_pos hrevoked] at houtcome hissue
    exact hrefused _ houtcome hissue
  rw [if_neg hrevoked] at houtcome hissue
  cases hclaims : parseClaims args.flags args.texts args.numerics with
  | error e =>
    rw [hclaims] at houtcome hissue
    exact hrefused e houtcome hissue
  | ok claims =>
    rw [hclaims, ok_bind] at hissue
    rw [hclaims, ok_bind, h.grantClaims_eq] at houtcome
    cases hpermit : Outcome.mapErr AuthorityError.toText (m.permitAll args.authority claims) with
    | error e =>
      rw [hpermit] at houtcome hissue
      exact hrefused e houtcome hissue
    | ok u =>
      rw [hpermit, ok_bind] at hissue
      have hgrant := h.grantClaims_eq (w.revocationList data) args.authority claims
        { pp := w.pp, flatAttrs := [], rng := fresh.scalars }
      rw [hpermit, ok_bind] at hgrant
      have hstep : m.step cwd (.issue args) (newId D fresh.stamp) =
          (.ok (), m.grant args.user ((resolved claims).map fun a => (a, m.epoch a))) := by
        rw [Monitor.step, Monitor.respond, hissue]
      unfold Agrees
      dsimp only
      rw [hstep]
      exact h.granted cwd hC hX hD hbeta huser (by simpa using hrevoked) hclaims
        (grantClaims_eq_ok.1 hgrant).1 fresh

include hC hX hD in
/-- A file of the users is deposited under a policy. -/
theorem Mirrors.deposited (h : Mirrors C A D data d w past m) (hA : A.Correct) {file policy : String}
    {tree : AccessTree} (hparse : parse policy = .ok tree) (hdepth : tree.gateDepth ≤ 41)
    (hpolicy : policy.length < 2 ^ 64) (hfile : ¬ Own data (cwd.join file)) {plaintext : Bytes}
    (hdocument : m.documents (cwd.join file) = some plaintext) (fresh : Fresh F) :
    ((Call.mk (.encrypt file policy) fresh).exec C A D cwd data d).1 = .ok () ∧
      ∃ w' past', Mirrors C A D data ((Call.mk (.encrypt file policy) fresh).exec C A D cwd data d).2 w'
        past' (m.deposit (newId D fresh.stamp) tree plaintext) ∧ w'.msk = w.msk := by
  have hregular : (Call.mk (.encrypt file policy) fresh).Regular cwd data := hpolicy
  have hread : d.read (cwd.join file) = .ok plaintext :=
    Disk.read_of_lookup ((h.documents _ hfile).trans hdocument)
  have hsetup : cwd.join file ≠ setupPath data := setupPath_eq data ▸ ne_path_of_not_own hfile .setup
  have hdone := h.represents.done_encrypt cwd hC hX hD hA file hparse hsetup hread fresh
  obtain ⟨w', h', ht', hmsk⟩ := exists_represents_encrypt cwd hC hX hD h.represents h.tells file hpolicy
    fresh
  rw [hdone] at ht'
  have hview : ∀ f, f ∉ (Call.mk (.encrypt file policy) fresh).files D →
      view data ((Call.mk (.encrypt file policy) fresh).exec C A D cwd data d).2 f = view data d f :=
    fun f hf => view_exec hX (hregular.avoids f) hf d
  have hregistry := registry_eq_of_view h.represents h' hD (hview _ (by simp [Call.files]))
  have hrevocation := revocation_eq_of_view h.represents h' hD (hview _ (by simp [Call.files]))
  have hkeys : ∀ user, (w'.keys user).isSome = (w.keys user).isSome :=
    fun user => isSome_keys_of_view h.represents h' (hview _ (by simp [Call.files]))
  have hpackages : ∀ id, id ≠ newId D fresh.stamp → (w'.packages id).isSome = (w.packages id).isSome :=
    fun id hid => isSome_packages_of_view h.represents h' (hview _ (by simpa [Call.files] using hid))
  have hlast : ∀ id, lastStored (past ++ (some (Happening.stored (newId D fresh.stamp) policy plaintext
      (w.revocationList data))).toList) id = if id = newId D fresh.stamp then
        some (.stored (newId D fresh.stamp) policy plaintext (w.revocationList data))
      else lastStored past id := by
    intro id
    rw [lastStored_append, Option.toList_some, lastStored_stored]
    by_cases hid : id = newId D fresh.stamp
    · rw [if_pos hid, if_pos hid.symm, Option.some_or]
    · rw [if_neg hid, if_neg (Ne.symm hid), Option.none_or]
  refine ⟨?_, w', _, ⟨h', ht', ?_, ?_, ?_, fun user => ?_, fun id => ?_, fun id hid => ?_,
    fun p hp => ?_⟩, hmsk⟩
  · cases hexec : ((Call.mk (.encrypt file policy) fresh).exec C A D cwd data d).1 with
    | error e =>
      rw [done_of_error hexec] at hdone
      cases hdone
    | ok u => rfl
  · rw [hregistry]
    exact h.controls
  · rw [World.revocationList, hrevocation]
    exact h.epoch
  · rw [World.revocationList, hrevocation]
    exact h.revoked
  · have hnone : grantsOf [.stored (newId D fresh.stamp) policy plaintext (w.revocationList data)] user =
        [] := rfl
    rw [Option.toList_some, grantsOf_append, hnone, List.append_nil, hkeys]
    exact h.grants user
  · change (Function.update m.deposits (newId D fresh.stamp) _ id = none ∧ _) ∨ ∃ deposit policy' revocation,
      Function.update m.deposits (newId D fresh.stamp) _ id = some deposit ∧ _
    rw [hlast]
    by_cases hid : id = newId D fresh.stamp
    · subst hid
      rw [Function.update_self, if_pos rfl]
      exact Or.inr ⟨⟨tree, m.epoch, plaintext⟩, policy, w.revocationList data, rfl, rfl, hparse,
        h.epoch.symm, hdepth⟩
    · rw [Function.update_of_ne hid, if_neg hid]
      exact (h.deposits id).imp_left (And.imp_right (eq_none_iff (hpackages id hid)).2)
  · have hne : id ≠ newId D fresh.stamp := by
      rintro rfl
      obtain ⟨filed, -, hfiled, -⟩ := ht'.packages _ _ _ _ ((hlast _).trans (if_pos rfl))
      rw [hid] at hfiled
      cases hfiled
    rw [has_packageDir_exec hX hregular fun htakes => hne htakes.2.symm]
    exact h.stray id ((eq_none_iff (hpackages id hne)).1 hid)
  · rw [lookup_exec_of_not_own hX hregular (by simp) hp]
    exact h.documents p hp

include hC hX hD in
theorem Mirrors.encrypt (h : Mirrors C A D data d w past m) (hA : A.Correct) (file : String)
    {policy : String} (hpolicy : policy.length < 2 ^ 64) (hfile : ¬ Own data (cwd.join file))
    (hdepth : ∀ tree, parse policy = .ok tree → tree.gateDepth ≤ 41) (fresh : Fresh F) :
    Agrees C A D cwd data ⟨.encrypt file policy, fresh⟩ d w m := by
  have hexec := exec_cmdEncrypt C A D cwd data file policy fresh d
  change (Call.mk (.encrypt file policy) fresh).exec C A D cwd data d = _ at hexec
  cases hparse : parse policy with
  | error e =>
    have houtcome : encryptOutcome C D data policy fresh d = Outcome.err e.toText := by
      rw [encryptOutcome, h.represents.setupOn_eq hC hX hD, h.represents.revocationOn_eq hD, hparse]
      rfl
    rw [houtcome] at hexec
    refine h.refused cwd hexec ?_
    change m.encrypt cwd file policy _ = _
    rw [Monitor.encrypt, hparse]
    rfl
  | ok tree =>
    cases hdocument : m.documents (cwd.join file) with
    | some plaintext =>
      have hstep : m.step cwd (.encrypt file policy) (newId D fresh.stamp) =
          (.ok (), m.deposit (newId D fresh.stamp) tree plaintext) := by
        rw [Monitor.step, Monitor.respond, Monitor.encrypt, hparse, hdocument]
        rfl
      unfold Agrees
      dsimp only
      rw [hstep]
      exact h.deposited cwd hC hX hD hA hparse (hdepth tree hparse) hpolicy hfile hdocument fresh
    | none =>
      -- the parameters are saved, and the file is not there
      have hstep : m.step cwd (.encrypt file policy) (newId D fresh.stamp) =
          (Outcome.err ("reading " ++ file), m) := by
        rw [Monitor.step, Monitor.respond, Monitor.encrypt, hparse, hdocument]
        rfl
      obtain ⟨prepared, hprepared⟩ := exists_encryptOutcome fresh
        (h.represents.setupOn_eq hC hX hD) (h.represents.revocationOn_eq hD) hparse
      have hread : (d.write (setupPath data) (setupBytes C D prepared.pp prepared.msk)).read
          (cwd.join file) = .error .notFound := by
        rw [setupPath_eq, Disk.read_congr (Disk.lookup_write_ne (ne_path_of_not_own hfile .setup) d _),
          Disk.read, h.documents _ hfile, hdocument]
      have hseal : sealOutcome C A D cwd file policy fresh prepared
          (d.write (setupPath data) (setupBytes C D prepared.pp prepared.msk)) =
            Outcome.err ("reading " ++ file) := by
        rw [sealOutcome, hread]
        rfl
      rw [hprepared, Cmd.andThen_ok, hseal] at hexec
      obtain ⟨w', h', ht', hmsk⟩ := exists_represents_encrypt cwd hC hX hD h.represents h.tells file
        hpolicy fresh
      rw [done_of_error (congrArg Prod.fst hexec), Option.toList_none, List.append_nil] at ht'
      rw [hexec, setupPath_eq] at h'
      have hview : ∀ f, f ≠ File.setup → view data (d.write (File.setup.path data)
          (setupBytes C D prepared.pp prepared.msk)) f = view data d f := by
        intro f hf
        rw [view_write, Function.update_of_ne hf]
      unfold Agrees
      dsimp only
      rw [hstep, hexec, setupPath_eq]
      refine ⟨rfl, w', past, h.of_frame h' ht' (registry_eq_of_view h.represents h' hD (hview _ (by simp)))
        (revocation_eq_of_view h.represents h' hD (hview _ (by simp)))
        (fun user => isSome_keys_of_view h.represents h' (hview _ (by simp)))
        (fun id => isSome_packages_of_view h.represents h' (hview _ (by simp)))
        (fun id => has_packageDir_write .setup id d _) fun p hp => ?_, hmsk⟩
      exact (Disk.lookup_write_ne (ne_path_of_not_own hp .setup) d _).trans (h.documents p hp)

include hC hX hD in
theorem Mirrors.decrypt (h : Mirrors C A D data d w past m) (hA : A.Correct) {p : ℕ} [CharP F p]
    (hp : 2 ^ 64 < p) (hbeta : w.msk.beta ≠ 0) {id user out : String} (hid : Path.IsName id)
    (huser : '/' ∉ user.toList) (hout : ¬ Own data (cwd.join out)) (fresh : Fresh F) :
    Agrees C A D cwd data ⟨.decrypt id user out, fresh⟩ d w m := by
  have hexec := exec_cmdDecrypt C A D cwd data id user out fresh d
  change (Call.mk (.decrypt id user out) fresh).exec C A D cwd data d = _ at hexec
  have hregular : (Call.mk (.decrypt id user out) fresh).Regular cwd data := hout
  have hgrants := h.grants user
  cases hkey : w.keys user with
  | none =>
    -- the user has no key
    rw [hkey, if_neg (by simp)] at hgrants
    have houtcome : keyOutcome C D data user d =
        Outcome.err ("no key on file for user '" ++ user ++ "'; run `issue` first") := by
      rw [keyOutcome, h.represents.setupOn_eq hC hX hD, ok_bind,
        h.represents.userKeyOn_eq_err huser hkey]
      rfl
    rw [houtcome] at hexec
    refine h.refused cwd hexec ?_
    change m.decrypt cwd id user out = _
    rw [Monitor.decrypt, hgrants]
    rfl
  | some usk =>
    have hsome : m.grants user = some (grantsOf past user) := by
      rw [hgrants, hkey]
      rfl
    have hdir := h.represents.packagesDir
    have hstray : ∀ id, (d.createDirAll (packagesDir data)).has (data.under ["packages", id]) =
        d.has (data.under ["packages", id]) := fun id => by
      rw [packagesDir_eq, has_packageDir_createDirAll (by simp)]
    rcases h.deposits id with ⟨hnone, hpackage⟩ | ⟨deposit, policy, revocation, hdeposit, hlast, hparse, hepoch,
      hdepth⟩
    · -- there is no package
      have hloaded : keyOutcome C D data user d = .ok (w.pp, usk) := by
        rw [keyOutcome, h.represents.setupOn_eq hC hX hD,
          h.represents.userKeyOn_eq hC hX hD huser hkey]
        rfl
      have hstored : storedOn C D data id (d.createDirAll (packagesDir data)) =
          Outcome.err (StorageError.notFound id).toText := by
        have hhas : (d.createDirAll (packagesDir data)).has ((packageStore data).packageDir id) = false := by
          rw [packageDir_eq hid, hstray]
          exact h.stray id hpackage
        rw [storedOn, ← packageStore, PackageStore.packageOn, if_pos hhas]
        rfl
      have hstep : m.step cwd (.decrypt id user out) (newId D fresh.stamp) =
          (Outcome.err (StorageError.notFound id).toText, m) := by
        rw [Monitor.step, Monitor.respond, Monitor.decrypt, hsome, hnone]
        rfl
      rw [hloaded, Cmd.andThen_ok, hstored] at hexec
      unfold Agrees
      dsimp only
      rw [hstep, hexec]
      exact ⟨rfl, w, past, h.of_frame hdir h.tells rfl rfl (fun _ => rfl) (fun _ => rfl) hstray
        h.documents, rfl⟩
    · have hfile : (d.files.lookup (keyFile data user)).isSome := by
        have hcontents := congrFun h.represents.view (.key user)
        rw [World.contents, hkey] at hcontents
        rw [keyFile_eq huser]
        exact Option.isSome_iff_exists.2 ⟨_, hcontents⟩
      obtain ⟨rawTree, hraw, hrun⟩ := exec_cmdDecrypt_of_represents cwd hC hX hD hA hp hbeta
        h.represents h.tells hlast (h.tells.readsBack hD hlast hparse hdepth) user huser hfile out fresh
      obtain rfl : deposit.policy = rawTree := Except.ok.inj (hparse.symm.trans hraw)
      have hopens : deposit.policy.isSatisfiedBy (entitled past user revocation) =
          deposit.opens (grantsOf past user) := by
        rw [Deposit.opens, ← hepoch]
        exact AccessTree.isSatisfiedBy_congr (fun a => mem_entitled_iff) _
      rw [hopens] at hrun
      change (Call.mk (.decrypt id user out) fresh).exec C A D cwd data d = _ at hrun
      unfold Agrees
      dsimp only
      cases hopen : deposit.opens (grantsOf past user) with
      | true =>
        have hstep : m.step cwd (.decrypt id user out) (newId D fresh.stamp) =
            (.ok (), m.write (cwd.join out) deposit.plaintext) := by
          rw [Monitor.step, Monitor.respond, Monitor.decrypt, hsome, hdeposit]
          simp only [Outcome.okOr_some, ok_bind, hopen, if_true]
        rw [hopen, if_pos rfl, decided] at hrun
        have hout' : ∀ id, data.under ["packages", id] ≠ cwd.join out := by
          rintro id heq
          exact hout ⟨"packages", by simp [ownNames], [id], heq.symm⟩
        have hevent := (hdir.write_of_not_own hout deposit.plaintext).event
          (fresh.event user "DECRYPT_SUCCESS" id ("wrote " ++ out))
        rw [auditPath_eq] at hevent
        rw [hstep, hrun, auditPath_eq]
        refine ⟨rfl, _, past, h.of_frame hevent (h.tells.of_eq rfl rfl rfl rfl) rfl rfl (fun _ => rfl)
          (fun _ => rfl) (fun id => ?_) fun p hp => ?_, rfl⟩
        · rw [has_packageDir_append, Disk.has_write_of_ne (hout' id), hstray]
        · rw [Disk.lookup_append_ne (ne_path_of_not_own hp .audit)]
          by_cases hpath : p = cwd.join out
          · subst hpath
            rw [Disk.lookup_write_self, Function.update_self]
          · rw [Disk.lookup_write_ne hpath, Function.update_of_ne hpath]
            exact h.documents p hp
      | false =>
        have hstep : m.step cwd (.decrypt id user out) (newId D fresh.stamp) =
            (Outcome.err (EnvelopeError.keyWrap .policyNotSatisfied).toText, m) := by
          rw [Monitor.step, Monitor.respond, Monitor.decrypt, hsome, hdeposit]
          simp only [Outcome.okOr_some, ok_bind, hopen]
          rfl
        rw [hopen, if_neg (by simp)] at hrun
        have hevent := hdir.event (fresh.event user "DECRYPT_DENIED" id
          (EnvelopeError.keyWrap .policyNotSatisfied).toText)
        rw [auditPath_eq] at hevent
        rw [hstep, hrun, Outcome.err, decided, auditPath_eq]
        refine ⟨rfl, _, past, h.of_frame hevent (h.tells.of_eq rfl rfl rfl rfl) rfl rfl (fun _ => rfl)
          (fun _ => rfl) (fun id => ?_) fun p hp => ?_, rfl⟩
        · rw [has_packageDir_append, hstray]
        · rw [Disk.lookup_append_ne (ne_path_of_not_own hp .audit)]
          exact h.documents p hp

end Step

/-! ## Runs -/

section Run

variable (C A D cwd data) in
/-- The replies of a run. -/
def outcomes : List (Call F) → Disk → List (Outcome String Unit)
  | [], _ => []
  | call :: calls, d =>
    (call.exec C A D cwd data d).1 :: outcomes calls (call.exec C A D cwd data d).2

variable (D) in
/-- What the commands ask of the monitor. -/
def requests (calls : List (Call F)) : List (Command × String) :=
  calls.map fun call => (call.command, newId D call.fresh.stamp)

variable (hC : C.ReadsBack) (hX : D.HexReadsBack) (hD : D.ReadsShallow) (hA : A.Correct) {p : ℕ}
  [CharP F p] (hp : 2 ^ 64 < p)
include hC hX hD hA hp

/-- **One command** and the monitor agree. -/
theorem Mirrors.agrees {d : Disk} {w : World F G₁ G₂ Gₜ} {past : List Happening} {m : Monitor}
    (h : Mirrors C A D data d w past m) (hbeta : w.msk.beta ≠ 0) {call : Call F}
    (hcall : call.Proper cwd data) : Agrees C A D cwd data call d w m := by
  obtain ⟨command, fresh⟩ := call
  obtain ⟨hregular, hown⟩ := hcall
  cases command with
  | setup => cases hregular
  | registerAuthority name controls => exact h.registerAuthority cwd hX hD name controls fresh
  | issue args => exact h.issue cwd hC hX hD hbeta args hregular fresh
  | encrypt file policy => exact h.encrypt cwd hC hX hD hA file hregular hown.1 hown.2 fresh
  | decrypt id user out => exact h.decrypt cwd hC hX hD hA hp hbeta hown.1 hown.2 hregular fresh
  | revokeAttribute attr => exact h.revokeAttribute cwd hX hD attr fresh
  | revokeUser user => exact h.revokeUser cwd hX hD user fresh

/-- **A run** and the monitor agree. -/
theorem Mirrors.runAll {d : Disk} {w : World F G₁ G₂ Gₜ} {past : List Happening} {m : Monitor}
    (h : Mirrors C A D data d w past m) (hbeta : w.msk.beta ≠ 0) {calls : List (Call F)}
    (hcalls : ∀ call ∈ calls, call.Proper cwd data) :
    outcomes C A D cwd data calls d = (m.run cwd (requests D calls)).1 ∧
      ∃ w' past', Mirrors C A D data (runAll C A D cwd data calls d) w' past'
        (m.run cwd (requests D calls)).2 := by
  induction calls generalizing d w past m with
  | nil => exact ⟨rfl, w, past, h⟩
  | cons call calls ih =>
    obtain ⟨hreply, w', past', h', hmsk⟩ := h.agrees hC hX hD hA hp hbeta
      (hcalls call List.mem_cons_self)
    obtain ⟨hreplies, hafter⟩ := ih h' (hmsk ▸ hbeta) fun c hc => hcalls c (List.mem_cons_of_mem _ hc)
    exact ⟨congrArg₂ List.cons hreply hreplies, hafter⟩

end Run

omit [DecidableEq F] in
/-- A setup starts the monitor. -/
theorem mirrors_setup {d : Disk} (hd : ∀ p, Own data p → d.has p = false) (fresh : Fresh F) :
    Mirrors C A D data (Fs.exec (cmdSetup C D data fresh) d).2 (World.start C D fresh) []
      (Monitor.start d.files.lookup) := by
  have hlookup : ∀ p, Own data p → d.files.lookup p = none := by
    intro p hp
    have hnot := hd p hp
    unfold Disk.has at hnot
    exact AList.lookup_eq_none.2 (by simpa using (Bool.or_eq_false_iff.1 hnot).1)
  have hvacant : Vacant data d := by
    refine ⟨funext fun f => hlookup _ (f.own data), ?_⟩
    have hnot := hd _ (File.revocation.own data)
    unfold Disk.has at hnot
    simpa using (Bool.or_eq_false_iff.1 hnot).2
  refine ⟨represents_cmdSetup C D hvacant fresh, tells_start fresh, fun name => rfl, rfl, rfl,
    fun user => rfl, fun id => Or.inl ⟨rfl, rfl⟩, fun id _ => ?_, fun p hp => ?_⟩
  · have hdata : ¬ ["packages", id] <+: [] := by simp
    have hcreate : (d.createDirAll (data.under [])).has (data.under ["packages", id]) = _ :=
      has_packageDir_createDirAll hdata d
    rw [Path.under_nil] at hcreate
    rw [exec_cmdSetup]
    dsimp only
    rw [auditPath_eq, has_packageDir_append, packagesDir_eq, has_packageDir_createDirAll (by simp),
      authoritiesPath_eq, has_packageDir_write, setupPath_eq, has_packageDir_write, hcreate]
    exact hd _ ⟨"packages", by simp [ownNames], [id], rfl⟩
  · rw [exec_cmdSetup]
    dsimp only
    rw [auditPath_eq, Disk.lookup_append_ne (ne_path_of_not_own hp .audit), Disk.files_createDirAll,
      authoritiesPath_eq, Disk.lookup_write_ne (ne_path_of_not_own hp .authorities), setupPath_eq,
      Disk.lookup_write_ne (ne_path_of_not_own hp .setup), Disk.files_createDirAll]
    rfl

section Start

variable (hC : C.ReadsBack) (hX : D.HexReadsBack) (hD : D.ReadsShallow) (hA : A.Correct) {p : ℕ} [CharP F p]
  (hp : 2 ^ 64 < p) {d : Disk} (hd : ∀ q, Own data q → d.has q = false) (setupFresh : Fresh F)
  (hbeta : (setup C setupFresh.scalars).1.2.beta ≠ 0)
include hC hX hD hA hp hd hbeta

/-- A setup and a run after it. -/
theorem exists_mirrors_setup {calls : List (Call F)} (hcalls : ∀ call ∈ calls, call.Proper cwd data) :
    outcomes C A D cwd data (⟨.setup, setupFresh⟩ :: calls) d =
        ((Monitor.start d.files.lookup).run cwd (requests D (⟨.setup, setupFresh⟩ :: calls))).1 ∧
      ∃ (w : World F G₁ G₂ Gₜ) (past : List Happening), Mirrors C A D data
        (runAll C A D cwd data (⟨.setup, setupFresh⟩ :: calls) d) w past
        ((Monitor.start d.files.lookup).run cwd (requests D (⟨.setup, setupFresh⟩ :: calls))).2 := by
  have hstart := mirrors_setup (C := C) (A := A) (D := D) hd setupFresh
  obtain ⟨hreplies, hmirrors⟩ := hstart.runAll hC hX hD hA hp hbeta hcalls
  have hreply : ((Call.mk .setup setupFresh).exec C A D cwd data d).1 = .ok () := by
    rw [exec_setup, exec_cmdSetup]
  exact ⟨congrArg₂ List.cons hreply hreplies, hmirrors⟩

/-- **The command line refines the monitor**: after a setup in a directory with nothing of a deployment,
a run of commands that work on their own files has the replies of the monitor, and the files of the users
are the monitor's. -/
theorem outcomes_eq_run {calls : List (Call F)} (hcalls : ∀ call ∈ calls, call.Proper cwd data) :
    outcomes C A D cwd data (⟨.setup, setupFresh⟩ :: calls) d =
        ((Monitor.start d.files.lookup).run cwd (requests D (⟨.setup, setupFresh⟩ :: calls))).1 ∧
      ∀ q, ¬ Own data q →
        (runAll C A D cwd data (⟨.setup, setupFresh⟩ :: calls) d).files.lookup q =
          ((Monitor.start d.files.lookup).run cwd
            (requests D (⟨.setup, setupFresh⟩ :: calls))).2.documents q := by
  obtain ⟨hreplies, w, past, h⟩ := exists_mirrors_setup hC hX hD hA hp hd setupFresh hbeta hcalls
  exact ⟨hreplies, h.documents⟩

end Start

/-- A note in the home directory. -/
def exampleHome : Disk := emptyDisk.write ⟨["home", "note"]⟩ (utf8 "hi")

/-- The note is encrypted for the holders of `a`; Alice opens it, and Bob has no key. -/
def exampleSession : List (Call Scalar) :=
  [⟨.registerAuthority "root" "", exampleFresh⟩, ⟨.issue (issueToAlice "a"), exampleFresh⟩,
    ⟨.encrypt "note" "a", exampleFresh⟩, ⟨.decrypt exampleId "alice" "copy", exampleFresh⟩,
    ⟨.decrypt exampleId "bob" "other", exampleFresh⟩]

theorem not_own_exampleHome (name : String) (rest : List String) :
    ¬ Own exampleData ⟨"home" :: name :: rest⟩ := by
  rintro ⟨name', -, rest', heq⟩
  simp [Path.under, exampleData] at heq

theorem has_exampleHome (q : Path) (hq : Own exampleData q) : exampleHome.has q = false := by
  have hne : q ≠ ⟨["home", "note"]⟩ := fun heq => not_own_exampleHome "note" [] (heq ▸ hq)
  rw [exampleHome, Disk.has_write_of_ne hne]
  rfl

theorem gateDepth_of_parse_a (tree : AccessTree) (h : parse "a" = .ok tree) : tree.gateDepth ≤ 41 := by
  obtain rfl : AccessTree.leaf "a" = tree := Except.ok.inj (Eq.trans (by rfl) h)
  exact Nat.zero_le _

theorem proper_exampleSession : ∀ call ∈ exampleSession, call.Proper exampleCwd exampleData := by
  have hname := isName_newId hexReadsBack_serdeJsonUnlimited exampleStamp
  have halice : '/' ∉ "alice".toList := by decide
  have hbob : '/' ∉ "bob".toList := by decide
  have hpolicy : ("a" : String).length < 2 ^ 64 := by decide
  exact List.forall_mem_cons.2 ⟨⟨trivial, trivial⟩, List.forall_mem_cons.2 ⟨⟨halice, trivial⟩,
    List.forall_mem_cons.2 ⟨⟨hpolicy, not_own_exampleHome "note" [], gateDepth_of_parse_a⟩,
      List.forall_mem_cons.2 ⟨⟨not_own_exampleHome "copy" [], hname, halice⟩,
        List.forall_mem_singleton.2 ⟨not_own_exampleHome "other" [], hname, hbob⟩⟩⟩⟩⟩

theorem outcomes_eq_run_exampleSession :
    outcomes exponents boxes serdeJsonUnlimited exampleCwd exampleData
        (⟨.setup, exampleFresh⟩ :: exampleSession) exampleHome =
      [.ok (), .ok (), .ok (), .ok (), .ok (),
        Outcome.err "no key on file for user 'bob'; run `issue` first"] ∧
    (runAll exponents boxes serdeJsonUnlimited exampleCwd exampleData
      (⟨.setup, exampleFresh⟩ :: exampleSession) exampleHome).files.lookup ⟨["home", "copy"]⟩ =
        some (utf8 "hi") := by
  obtain ⟨hreplies, hdocuments⟩ := outcomes_eq_run (A := boxes) readsBack_exponents
    hexReadsBack_serdeJsonUnlimited readsBack_serdeJsonUnlimited.shallow correct_boxes
    (by norm_num : 2 ^ 64 < scalarModulus) has_exampleHome exampleFresh (one_ne_zero : (1 : Scalar) ≠ 0)
    proper_exampleSession
  refine ⟨hreplies.trans ?_, (hdocuments _ (not_own_exampleHome "copy" [])).trans ?_⟩
  · rfl
  · rfl

end SecureABE.Cli
