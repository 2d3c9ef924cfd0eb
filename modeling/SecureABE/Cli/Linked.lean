import SecureABE.Cli.Access
import SecureABE.Cli.Frames
import SecureABE.Cli.Reissuing

/-!
# Keys and packages of one secret

What decryption finds is a function of the disk (`decryptOutcome`). It needs a key and a package that are
made with one master secret. Issuing is the only command that makes a new key, and storing the only one
that makes a package, both with the secret on the disk (`Linked`): a setup starts such a link where there
is neither a key nor the package yet, and every other command keeps it.
-/

namespace SecureABE.Cli

open Rust SecureABE.Core SecureABE.Policy SecureABE.Revocation SecureABE.Authorities SecureABE.Audit
  SecureABE.Envelope SecureABE.Storage

variable {F G₁ G₂ Gₜ : Type} [Field F] [DecidableEq F] [AddCommGroup G₁] [Module F G₁]
  [AddCommGroup G₂] [Module F G₂] [AddCommGroup Gₜ] [Module F Gₜ]
variable (C : Curve F G₁ G₂ Gₜ) (A : Cipher) (D : Codec) (cwd data : Path)

/-! ## Decryption as a function of the disk -/

/-- The document that `cmd_decrypt` finds, or why it fails. -/
def decryptOutcome (user id : String) (d : Disk) : Outcome String Bytes := do
  let key ← keyOutcome C D data user d
  let package ← storedOn C D data id (d.createDirAll (packagesDir data))
  Outcome.mapErr EnvelopeError.toText (Envelope.open C A D key.1 key.2 package)

variable {C A D cwd data}

/-- **Decryption succeeds** exactly if there is a document to be found. -/
theorem exec_cmdDecrypt_eq_ok {id user out : String} {fresh : Fresh F} {d : Disk} :
    (Fs.exec (cmdDecrypt C A D cwd data id user out fresh) d).1 = .ok () ↔
      ∃ plaintext, decryptOutcome C A D data user id d = .ok plaintext := by
  rw [exec_cmdDecrypt, decryptOutcome]
  cases keyOutcome C D data user d with
  | error e => simp [Cmd.andThen_error]
  | ok key =>
    rw [Cmd.andThen_ok, ok_bind]
    cases storedOn C D data id (d.createDirAll (packagesDir data)) with
    | error e => simp [Cmd.andThen_error]
    | ok package =>
      rw [Cmd.andThen_ok, ok_bind]
      rcases Envelope.open C A D key.1 key.2 package with (e | msg) | plaintext
      · simp [decided, Outcome.err, Outcome.mapErr]
      · simp [decided, Outcome.mapErr]
      · simp [decided]

/-- What decryption reads: parameters, the key, and the package. -/
theorem decryptOutcome_eq_ok {user id : String} {d : Disk} {plaintext : Bytes} :
    decryptOutcome C A D data user id d = .ok plaintext ↔ ∃ pp msk usk package,
      setupOn C D data d = .ok (pp, msk) ∧ userKeyOn C D data user d = .ok usk ∧
      storedOn C D data id (d.createDirAll (packagesDir data)) = .ok package ∧
      Envelope.open C A D pp usk package = .ok plaintext := by
  rw [decryptOutcome, bind_eq_ok]
  constructor
  · rintro ⟨key, hkey, h⟩
    obtain ⟨⟨pp, msk⟩, hsetup, hkey⟩ := bind_eq_ok.1 hkey
    obtain ⟨usk, husk, hret⟩ := bind_eq_ok.1 hkey
    obtain rfl := Except.ok.inj hret
    obtain ⟨package, hpackage, hopen⟩ := bind_eq_ok.1 h
    exact ⟨pp, msk, usk, package, hsetup, husk, hpackage, Outcome.mapErr_eq_ok.1 hopen⟩
  · rintro ⟨pp, msk, usk, package, hsetup, husk, hpackage, hopen⟩
    refine ⟨(pp, usk), ?_, ?_⟩
    · rw [keyOutcome, hsetup, ok_bind, husk]
      rfl
    · rw [hpackage, ok_bind]
      exact Outcome.mapErr_eq_ok.2 hopen

omit [DecidableEq F] in
/-- A package is loaded from two files and a directory. -/
theorem storedOn_of_view {id : String} (hid : Path.IsName id) {d d' : Disk}
    (hsealed : view data d' (.sealedDoc id) = view data d (.sealedDoc id))
    (hwrapped : view data d' (.wrappedKey id) = view data d (.wrappedKey id))
    (hdir : ∀ p, d.has p = true → d'.has p = true) {package : EncryptedPackage G₁}
    (h : storedOn C D data id (d.createDirAll (packagesDir data)) = .ok package) :
    storedOn C D data id (d'.createDirAll (packagesDir data)) = .ok package := by
  have hread : ∀ {f : File}, view data d' f = view data d f →
      (d'.createDirAll (packagesDir data)).read (f.path data) =
        (d.createDirAll (packagesDir data)).read (f.path data) := fun hf => Disk.read_congr hf
  change Outcome.mapErr _ ((packageStore data).packageOn C D id _) = _ at h
  change Outcome.mapErr _ ((packageStore data).packageOn C D id _) = _
  have hthere := (PackageStore.of_packageOn_eq_ok C D (Outcome.mapErr_eq_ok.1 h)).1
  rw [PackageStore.packageOn, sealedPath_eq hid, wrappedKeyPath_eq hid] at h ⊢
  rw [if_neg (by simp [hthere])] at h
  rw [if_neg (by simp [Disk.has_createDirAll_mono hdir _ _ hthere]), hread hsealed, hread hwrapped]
  exact h

omit [DecidableEq F] in
/-- **A stored package** that can be loaded is the one that was stored. -/
theorem storedOn_eq_ok_of_view (hC : C.ReadsBack) (hX : D.HexReadsBack) (hD : D.ReadsFaithfully)
    {id : String} (hid : Path.IsName id) {d : Disk} {package package' : EncryptedPackage G₁}
    (hreadable : Readable package)
    (hsealed : view data d (.sealedDoc id) = some (PackageStore.sealedBytes D package))
    (hwrapped : view data d (.wrappedKey id) = some (PackageStore.keyBytes C D package))
    (h : storedOn C D data id (d.createDirAll (packagesDir data)) = .ok package') : package' = package := by
  change Outcome.mapErr _ ((packageStore data).packageOn C D id _) = _ at h
  have hdir := (PackageStore.of_packageOn_eq_ok C D (Outcome.mapErr_eq_ok.1 h)).1
  rw [view, ← sealedPath_eq hid] at hsealed
  rw [view, ← wrappedKeyPath_eq hid] at hwrapped
  rw [PackageStore.packageOn_eq (packageStore data) id package hdir hsealed hwrapped] at h
  obtain ⟨sealedDoc, hdoc, h⟩ := bind_eq_ok.1 (Outcome.mapErr_eq_ok.1 h)
  obtain ⟨ct, hct, hret⟩ := bind_eq_ok.1 h
  have hreadDoc : D.fromStr (D.toStringPretty package.sealedDoc.toJson) =
      .ok package.sealedDoc.toJson := by
    cases hread : D.fromStr (D.toStringPretty package.sealedDoc.toJson) with
    | error msg =>
      rw [PackageStore.decodeSealed, hread] at hdoc
      cases hdoc
    | ok j => rw [hD.eq_of_pretty _ j hread]
  have hreadKey : D.fromStr (ciphertextToJson C D package.keyCiphertext) =
      .ok (ciphertextDto C D package.keyCiphertext).toJson := by
    cases hread : D.fromStr (ciphertextToJson C D package.keyCiphertext) with
    | error msg =>
      rw [PackageStore.decodeKey, ciphertextFromJson, hread] at hct
      cases hct
    | ok j => rw [hD.eq_of_pretty _ j hread]
  rw [PackageStore.decodeSealed_toJson hreadDoc] at hdoc
  rw [PackageStore.decodeKey, ciphertextFromJson_toJson hC hX hreadable.1 hreadable.2 hreadKey] at hct
  rw [← Except.ok.inj hret, ← Except.ok.inj hdoc, ← Except.ok.inj hct]

/-! ## What issuing and storing write -/

section Views

variable {d : Disk}

omit [DecidableEq F]

theorem view_afterIssue {args : IssueArgs} (huser : '/' ∉ args.user.toList) (fresh : Fresh F)
    (key : Issued F G₁ G₂ Gₜ) : ∃ log, view data (afterIssue C D data args fresh key d) =
      Function.update (Function.update (Function.update (view data d) .setup
        (some (setupBytes C D key.pp key.msk))) (.key args.user) (some (userKeyBytes C D key.usk)))
        .audit (some log) := by
  rw [afterIssue, setupPath_eq, keyFile_eq huser, auditPath_eq, view_append, view_write,
    view_createDirAll, view_write]
  exact ⟨_, rfl⟩

theorem has_afterIssue {args : IssueArgs} {p : Path} (h : d.has p = true) (fresh : Fresh F)
    (key : Issued F G₁ G₂ Gₜ) : (afterIssue C D data args fresh key d).has p = true :=
  Disk.has_write (Disk.has_write (Disk.has_createDirAll (Disk.has_write h _ _) _) _ _) _ _

theorem view_afterEncrypt (hX : D.HexReadsBack) (file policy : String) (fresh : Fresh F)
    (package : EncryptedPackage G₁) :
    ∃ manifest log, view data (afterEncrypt C D data file policy fresh package d) =
      Function.update (Function.update (Function.update (Function.update (view data d)
        (.sealedDoc (newId D fresh.stamp)) (some (PackageStore.sealedBytes D package)))
        (.wrappedKey (newId D fresh.stamp)) (some (PackageStore.keyBytes C D package)))
        (.manifest (newId D fresh.stamp)) (some manifest)) .audit (some log) := by
  have hid := isName_newId hX fresh.stamp
  rw [afterEncrypt, auditPath_eq, view_append]
  change ∃ manifest log, Function.update (view data ((packageStore data).afterPut C D _ package _ _)) _
    _ = _
  rw [PackageStore.afterPut, sealedPath_eq hid, wrappedKeyPath_eq hid, manifestPath_eq hid, view_write,
    view_write, view_write, view_createDirAll, view_createDirAll]
  exact ⟨_, _, rfl⟩

end Views

/-! ## A key and a package of one secret -/

omit [DecidableEq F] in
/-- A package that was sealed under a tree of bounded size is read back. -/
theorem readable_of_seals {pp : PublicParams G₁ G₂ Gₜ} {tree : AccessTree} {plaintext : Bytes}
    {package : EncryptedPackage G₁} {n : ℕ} (hn : n < 2 ^ 64) (hfits : tree.Fits n)
    (h : Seals C A D pp tree plaintext package) : Readable package := by
  have htree := h.tree_eq
  obtain ⟨dek, s, rng, henc, -⟩ := h
  rw [← htree] at hfits henc
  exact ⟨hfits.thresholdsFit hn, henc.index_lt (hfits.childrenLt hn)⟩

variable (C A D data) in
/-- The parameters on the disk are those of a deployment, and the keys of the given users and the packages
with the given ids, as far as they are there, are made with these parameters. -/
structure Linked (users ids : Set String) (pp : PublicParams G₁ G₂ Gₜ) (msk : MasterSecret F) (d : Disk) :
    Prop where
  setup : view data d .setup = some (setupBytes C D pp msk)
  deployed : Deployed C msk pp
  key : ∀ user ∈ users, ∀ b, view data d (.key user) = some b → ∃ usk attrs r,
    b = userKeyBytes C D usk ∧ msk.beta ≠ 0 ∧ Minted pp msk attrs r usk
  package : ∀ id ∈ ids, ∀ b, view data d (.wrappedKey id) = some b → ∃ package tree plaintext n,
    b = PackageStore.keyBytes C D package ∧
    view data d (.sealedDoc id) = some (PackageStore.sealedBytes D package) ∧
    n < 2 ^ 64 ∧ tree.Fits n ∧ Seals C A D pp tree plaintext package

namespace Linked

variable {users ids : Set String} {pp : PublicParams G₁ G₂ Gₜ} {msk : MasterSecret F} {d d' : Disk}

omit [DecidableEq F] in
/-- The parameters may be extended where keys and packages are left alone. -/
theorem extend (h : Linked C A D data users ids pp msk d) {pp' : PublicParams G₁ G₂ Gₜ}
    (hext : Extends pp pp') (hpp' : Deployed C msk pp')
    (hsetup : view data d' .setup = some (setupBytes C D pp' msk))
    (hkey : ∀ user, view data d' (.key user) = view data d (.key user))
    (hwrapped : ∀ id, view data d' (.wrappedKey id) = view data d (.wrappedKey id))
    (hsealed : ∀ id, view data d' (.sealedDoc id) = view data d (.sealedDoc id)) :
    Linked C A D data users ids pp' msk d' where
  setup := hsetup
  deployed := hpp'
  key := by
    intro user huser b hb
    rw [hkey] at hb
    obtain ⟨usk, attrs, r, hbytes, hbeta, hminted⟩ := h.key user huser b hb
    exact ⟨usk, attrs, r, hbytes, hbeta, hminted.mono hext⟩
  package := by
    intro id hid b hb
    rw [hwrapped] at hb
    obtain ⟨package, tree, plaintext, n, hbytes, hdoc, hn, hfits, hseals⟩ := h.package id hid b hb
    exact ⟨package, tree, plaintext, n, hbytes, (hsealed id).trans hdoc, hn, hfits, hseals.mono hext⟩

/-- **A setup starts a link** of the users without a key and the packages that are not there. -/
theorem of_setup (hX : D.HexReadsBack) (hkey : ∀ user ∈ users, view data d (.key user) = none)
    (hwrapped : ∀ id ∈ ids, view data d (.wrappedKey id) = none) (fresh : Fresh F) :
    Linked C A D data users ids (Core.setup C fresh.scalars).1.1 (Core.setup C fresh.scalars).1.2
      ((Call.mk .setup fresh).exec C A D cwd data d).2 := by
  have hframe : ∀ f : File, f ∉ (Call.mk .setup fresh).files D →
      view data ((Call.mk .setup fresh).exec C A D cwd data d).2 f = view data d f :=
    fun f hf => view_exec hX (show Call.Avoids cwd data ⟨.setup, fresh⟩ f from trivial) hf d
  refine ⟨?_, deployed_setup C fresh.scalars, ?_, ?_⟩
  · rw [exec_setup, exec_cmdSetup, auditPath_eq, authoritiesPath_eq, setupPath_eq, view_append,
      Function.update_of_ne (by simp), view_createDirAll, view_write, Function.update_of_ne (by simp),
      view_write, Function.update_self]
  · intro user huser b hb
    rw [hframe _ (by simp [Call.files]), hkey user huser] at hb
    cases hb
  · intro id hid b hb
    rw [hframe _ (by simp [Call.files]), hwrapped id hid] at hb
    cases hb

variable (hC : C.ReadsBack) (hX : D.HexReadsBack) (hD : D.ReadsShallow)
include hC hX hD

omit [DecidableEq F] in
theorem setupOn_eq (h : Linked C A D data users ids pp msk d) : setupOn C D data d = .ok (pp, msk) :=
  setupOn_of_view hC hX hD h.deployed h.setup

/-- An issue extends the parameters, and makes the key with them. -/
theorem issued (h : Linked C A D data users ids pp msk d) {args : IssueArgs}
    (huser : '/' ∉ args.user.toList) {fresh : Fresh F} {key : Issued F G₁ G₂ Gₜ}
    (hissued : issueOutcome C D data args fresh d = .ok key) :
    Extends pp key.pp ∧ key.msk = msk ∧
      Linked C A D data users ids key.pp msk (afterIssue C D data args fresh key d) := by
  obtain ⟨input, hadmits, hbeta, hmsk, -, -, ⟨calls, -, hpp⟩, r, hminted⟩ := issueOutcome_eq_ok hissued
  obtain ⟨hpp', hmsk'⟩ :=
    Prod.mk.inj (Except.ok.inj (hadmits.setup.symm.trans (h.setupOn_eq hC hX hD)))
  rw [hmsk'] at hmsk hbeta
  rw [hpp'] at hpp
  rw [hmsk] at hminted
  have hext : Extends pp key.pp := hpp ▸ extends_registerAll pp calls
  have hdeployed : Deployed C msk key.pp := hpp ▸ h.deployed.registerAll calls
  obtain ⟨log, hview⟩ : ∃ log, view data (afterIssue C D data args fresh key d) = _ :=
    view_afterIssue huser fresh key
  rw [hmsk] at hview
  refine ⟨hext, hmsk, ?_, hdeployed, ?_, ?_⟩
  · rw [hview, Function.update_of_ne (by simp), Function.update_of_ne (by simp), Function.update_self]
  · intro user hmem b hb
    rw [hview, Function.update_of_ne (by simp)] at hb
    by_cases hu : user = args.user
    · rw [hu, Function.update_self] at hb
      exact ⟨key.usk, _, r, (Option.some.inj hb).symm, hbeta, hminted⟩
    · rw [Function.update_of_ne (by simpa using hu), Function.update_of_ne (by simp)] at hb
      obtain ⟨usk, attrs, r', hbytes, hbeta', hminted'⟩ := h.key user hmem b hb
      exact ⟨usk, attrs, r', hbytes, hbeta', hminted'.mono hext⟩
  · intro id hid b hb
    rw [hview, Function.update_of_ne (by simp), Function.update_of_ne (by simp),
      Function.update_of_ne (by simp)] at hb
    obtain ⟨package, tree, plaintext, n, hbytes, hdoc, hn, hfits, hseals⟩ := h.package id hid b hb
    refine ⟨package, tree, plaintext, n, hbytes, ?_, hn, hfits, hseals.mono hext⟩
    rw [hview, Function.update_of_ne (by simp), Function.update_of_ne (by simp),
      Function.update_of_ne (by simp), hdoc]

/-- An encryption extends the parameters, and makes a package with them. -/
theorem encrypted (h : Linked C A D data users ids pp msk d) (file : String) {policy : String}
    (hpolicy : policy.length < 2 ^ 64) (fresh : Fresh F) :
    ∃ pp', Linked C A D data users ids pp' msk
      ((Call.mk (.encrypt file policy) fresh).exec C A D cwd data d).2 := by
  have hexec := exec_cmdEncrypt C A D cwd data file policy fresh d
  change (Call.mk (.encrypt file policy) fresh).exec C A D cwd data d = _ at hexec
  rw [hexec]
  cases hprepared : encryptOutcome C D data policy fresh d with
  | error e => exact ⟨pp, h⟩
  | ok prepared =>
    obtain ⟨pp', revocation, rawTree, hsetup, hrev, hparse, htree, calls, -, hpp⟩ :=
      encryptOutcome_eq_ok hprepared
    obtain ⟨hpp', hmsk⟩ :=
      Prod.mk.inj (Except.ok.inj (hsetup.symm.trans (h.setupOn_eq hC hX hD)))
    rw [hpp'] at hpp
    have hview : view data (d.write (setupPath data) (setupBytes C D prepared.pp prepared.msk)) =
        Function.update (view data d) .setup (some (setupBytes C D prepared.pp msk)) := by
      rw [hmsk, setupPath_eq, view_write]
    have hsaved : Linked C A D data users ids prepared.pp msk
        (d.write (setupPath data) (setupBytes C D prepared.pp prepared.msk)) :=
      h.extend (hpp ▸ extends_registerAll pp calls) (hpp ▸ h.deployed.registerAll calls)
        (by rw [hview, Function.update_self])
        (fun user => by rw [hview, Function.update_of_ne (by simp)])
        (fun id => by rw [hview, Function.update_of_ne (by simp)])
        (fun id => by rw [hview, Function.update_of_ne (by simp)])
    rw [Cmd.andThen_ok]
    cases hsealed : sealOutcome C A D cwd file policy fresh prepared
        (d.write (setupPath data) (setupBytes C D prepared.pp prepared.msk)) with
    | error e => exact ⟨prepared.pp, hsaved⟩
    | ok package =>
      obtain ⟨plaintext, -, hseals⟩ := sealOutcome_eq_ok hsealed
      have hfits : prepared.tree.Fits policy.length := by
        rw [htree]
        exact (parse_fits hparse).of_gates_eq (gates_retagTree rawTree revocation)
      rw [Cmd.andThen_ok]
      generalize d.write (setupPath data) (setupBytes C D prepared.pp prepared.msk) = d' at hsaved ⊢
      obtain ⟨manifest, log, hview⟩ : ∃ manifest log,
          view data (afterEncrypt C D data file policy fresh package d') = _ :=
        view_afterEncrypt hX file policy fresh package
      refine ⟨prepared.pp, ?_, hsaved.deployed, ?_, ?_⟩
      · rw [hview]
        simpa using hsaved.setup
      · intro user huser b hb
        rw [hview] at hb
        exact hsaved.key user huser b (by simpa using hb)
      · intro id hid b hb
        rw [hview] at hb ⊢
        by_cases hnew : id = newId D fresh.stamp
        · subst hnew
          refine ⟨package, prepared.tree, plaintext, policy.length, ?_, ?_, hpolicy, hfits, hseals⟩
          · simpa using hb.symm
          · simp
        · have hpackage := hsaved.package id hid b (by simpa [hnew] using hb)
          simpa [hnew] using hpackage

omit [DecidableEq F] in
/-- The key of a linked user is minted. -/
theorem exists_minted {user : String} (h : Linked C A D data users ids pp msk d) (hmem : user ∈ users)
    (huser : '/' ∉ user.toList) {usk : UserSecretKey G₂} (husk : userKeyOn C D data user d = .ok usk) :
    msk.beta ≠ 0 ∧ ∃ attrs r, Minted pp msk attrs r usk := by
  cases hb : view data d (.key user) with
  | none =>
    rw [userKeyOn_of_view_none huser hb] at husk
    cases husk
  | some b =>
    obtain ⟨usk', attrs, r, rfl, hbeta, hminted⟩ := h.key user hmem b hb
    rw [userKeyOn_of_view huser hC hX hD hb] at husk
    obtain rfl := Except.ok.inj husk
    exact ⟨hbeta, attrs, r, hminted⟩

omit hD [DecidableEq F] in
/-- A linked package that can be loaded is sealed. -/
theorem exists_seals (hD : D.ReadsFaithfully) {id : String} (h : Linked C A D data users ids pp msk d)
    (hmem : id ∈ ids) (hid : Path.IsName id) {package : EncryptedPackage G₁}
    (hpackage : storedOn C D data id (d.createDirAll (packagesDir data)) = .ok package) :
    ∃ tree plaintext n, n < 2 ^ 64 ∧ tree.Fits n ∧ Seals C A D pp tree plaintext package := by
  obtain ⟨bytes, hwrapped⟩ : ∃ bytes, view data d (.wrappedKey id) = some bytes := by
    rw [view, ← wrappedKeyPath_eq hid]
    exact (PackageStore.of_packageOn_eq_ok C D (Outcome.mapErr_eq_ok.1 hpackage)).2
  obtain ⟨package', tree, plaintext, n, rfl, hsealed, hn, hfits, hseals⟩ := h.package id hmem bytes hwrapped
  obtain rfl := storedOn_eq_ok_of_view hC hX hD hid (readable_of_seals hn hfits hseals) hsealed hwrapped
    hpackage
  exact ⟨tree, plaintext, n, hn, hfits, hseals⟩

/-- **Every command but setup** keeps the link. -/
theorem exec (h : Linked C A D data users ids pp msk d) {call : Call F}
    (hcall : call.Regular cwd data) :
    ∃ pp', Linked C A D data users ids pp' msk (call.exec C A D cwd data d).2 := by
  have hquiet : (.setup ∉ call.files D) → (∀ user, .key user ∉ call.files D) →
      (∀ id, .wrappedKey id ∉ call.files D) → (∀ id, .sealedDoc id ∉ call.files D) →
      ∃ pp', Linked C A D data users ids pp' msk (call.exec C A D cwd data d).2 := by
    intro hsetup hkey hwrapped hsealed
    have hview : ∀ f, f ∉ call.files D →
        view data (call.exec C A D cwd data d).2 f = view data d f :=
      fun f hf => view_exec hX (hcall.avoids f) hf d
    exact ⟨pp, h.extend (Extends.refl pp) h.deployed ((hview _ hsetup).trans h.setup)
      (fun user => hview _ (hkey user)) (fun id => hview _ (hwrapped id))
      (fun id => hview _ (hsealed id))⟩
  obtain ⟨command, fresh⟩ := call
  cases command with
  | setup => cases hcall
  | issue args =>
    rw [exec_issue, exec_cmdIssue]
    cases hissued : issueOutcome C D data args fresh d with
    | error e => exact ⟨pp, h⟩
    | ok key => exact ⟨key.pp, (h.issued hC hX hD hcall hissued).2.2⟩
  | encrypt file policy => exact h.encrypted hC hX hD file hcall fresh
  | _ =>
    exact hquiet (by simp [Call.files]) (by simp [Call.files]) (by simp [Call.files])
      (by simp [Call.files])

/-- **A run without a setup** keeps the link. -/
theorem runAll (h : Linked C A D data users ids pp msk d) {calls : List (Call F)}
    (hcalls : ∀ call ∈ calls, call.Regular cwd data) :
    ∃ pp', Linked C A D data users ids pp' msk (Cli.runAll C A D cwd data calls d) := by
  induction calls generalizing pp d with
  | nil => exact ⟨pp, h⟩
  | cons call calls ih =>
    obtain ⟨pp', h'⟩ := h.exec hC hX hD (hcalls call (by simp))
    exact ih h' fun call hcall => hcalls call (by simp [hcall])

end Linked

end SecureABE.Cli
