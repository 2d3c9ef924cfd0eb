import SecureABE.Cli.Linked

/-!
# Keeping access

Who can decrypt a package can still do so after any further commands, revocations among them, as long
as no key is issued to the user under a master secret that is younger than the package (`decrypt_kept`).
A setup on top of a deployment replaces the master secret, and the next key for the user does not fit
the packages of before (`not_kept_exampleRestart`).
-/

namespace SecureABE.Cli

open Rust SecureABE.Core SecureABE.Policy SecureABE.Revocation SecureABE.Authorities SecureABE.Audit
  SecureABE.Envelope SecureABE.Storage

variable {F G₁ G₂ Gₜ : Type} [Field F] [DecidableEq F] [AddCommGroup G₁] [Module F G₁]
  [AddCommGroup G₂] [Module F G₂] [AddCommGroup Gₜ] [Module F Gₜ]
variable {C : Curve F G₁ G₂ Gₜ} {A : Cipher} {D : Codec} {cwd data : Path}

/-! ## Runs with setups -/

variable (cwd data) in
/-- A setup, or a command that works on its own files. -/
def Call.Tidy (call : Call F) : Prop := call.command ≠ .setup → call.Regular cwd data

variable (C A D cwd data) in
/-- The last setup of the run came when the users had no keys and the packages were not there. -/
def SetUpFor (users ids : Set String) (calls : List (Call F)) (d : Disk) : Prop :=
  ∃ before fresh after, calls = before ++ ⟨.setup, fresh⟩ :: after ∧
    (∀ call ∈ after, call.command ≠ .setup) ∧
    (∀ user ∈ users, view data (runAll C A D cwd data before d) (.key user) = none) ∧
    ∀ id ∈ ids, view data (runAll C A D cwd data before d) (.wrappedKey id) = none

omit [Field F] [DecidableEq F] in
theorem Call.Tidy.avoids {call : Call F} (h : call.Tidy cwd data) (f : File) : call.Avoids cwd data f := by
  by_cases hsetup : call.command = .setup
  · simp [Call.Avoids, hsetup]
  · exact (h hsetup).avoids f

section Runs

variable (hC : C.ReadsBack) (hX : D.HexReadsBack) (hD : D.ReadsShallow)

omit [DecidableEq F] in
theorem setupOn_of_view_none {d : Disk} (hd : view data d .setup = none) :
    ∃ msg, (setupOn C D data d : Outcome String (PublicParams G₁ G₂ Gₜ × MasterSecret F)) =
      Outcome.err msg := by
  have hread : d.read (setupPath data) = .error .notFound := by
    rw [setupPath_eq, Disk.read, show d.files.lookup (File.setup.path data) = none from hd]
  rw [setupOn, hread]
  exact ⟨_, rfl⟩

/-- Without parameters there are none later, but for a setup. -/
theorem view_setup_exec (hX : D.HexReadsBack) {d : Disk} (hd : view data d .setup = none) {call : Call F}
    (hcall : call.Regular cwd data) : view data (call.exec C A D cwd data d).2 .setup = none := by
  obtain ⟨msg, hmsg⟩ := setupOn_of_view_none (C := C) (D := D) hd
  by_cases hfile : File.setup ∈ call.files D
  · obtain ⟨command, fresh⟩ := call
    cases command with
    | setup => cases hcall
    | issue args =>
      have hissue : issueOutcome C D data args fresh d = Outcome.err msg := by
        rw [issueOutcome, hmsg]
        rfl
      rw [exec_issue, exec_cmdIssue, hissue]
      exact hd
    | encrypt file policy =>
      have hencrypt : encryptOutcome C D data policy fresh d = Outcome.err msg := by
        rw [encryptOutcome, hmsg]
        rfl
      have hexec := exec_cmdEncrypt C A D cwd data file policy fresh d
      change (Call.mk (.encrypt file policy) fresh).exec C A D cwd data d = _ at hexec
      rw [hexec, hencrypt]
      exact hd
    | _ => simp [Call.files] at hfile
  · exact (view_exec hX (hcall.avoids .setup) hfile d).trans hd

include hC hX hD

/-- Parameters that can be loaded are kept, or there are new ones. -/
theorem Linked.exec_tidy {pp : PublicParams G₁ G₂ Gₜ} {msk : MasterSecret F} {d : Disk}
    (h : Linked C A D data ∅ ∅ pp msk d) {call : Call F} (hcall : call.Tidy cwd data) :
    ∃ pp' msk', Linked C A D data ∅ ∅ pp' msk' (call.exec C A D cwd data d).2 := by
  by_cases hsetup : call.command = .setup
  · obtain ⟨command, fresh⟩ := call
    obtain rfl : command = .setup := hsetup
    exact ⟨_, _, Linked.of_setup hX (by simp) (by simp) fresh⟩
  · obtain ⟨pp', h'⟩ := h.exec hC hX hD (hcall hsetup)
    exact ⟨pp', msk, h'⟩

/-- **What a run makes of the parameters**: there are none, or they can be loaded. -/
theorem setup_runAll {d : Disk} (hd : view data d .setup = none) {calls : List (Call F)}
    (hcalls : ∀ call ∈ calls, call.Tidy cwd data) :
    view data (runAll C A D cwd data calls d) .setup = none ∨
      ∃ pp msk, Linked C A D data ∅ ∅ pp msk (runAll C A D cwd data calls d) := by
  induction calls using List.reverseRecOn with
  | nil => exact Or.inl hd
  | append_singleton calls call ih =>
    rw [runAll_append, runAll_cons, runAll_nil]
    have hcall := hcalls call (by simp)
    rcases ih fun c hc => hcalls c (by simp [hc]) with hnone | ⟨pp, msk, hlinked⟩
    · by_cases hsetup : call.command = .setup
      · obtain ⟨command, fresh⟩ := call
        obtain rfl : command = .setup := hsetup
        exact Or.inr ⟨_, _, Linked.of_setup hX (by simp) (by simp) fresh⟩
      · exact Or.inl (view_setup_exec hX hnone (hcall hsetup))
    · exact Or.inr (hlinked.exec_tidy hC hX hD hcall)

/-- Users and packages with a setup of their own are linked. -/
theorem SetUpFor.linked {users ids : Set String} {calls : List (Call F)} {d : Disk}
    (h : SetUpFor C A D cwd data users ids calls d) (hcalls : ∀ call ∈ calls, call.Tidy cwd data) :
    ∃ pp msk, Linked C A D data users ids pp msk (runAll C A D cwd data calls d) := by
  obtain ⟨before, fresh, after, rfl, hafter, hkey, hwrapped⟩ := h
  have hstart : Linked C A D data users ids _ _
      ((Call.mk .setup fresh).exec C A D cwd data (runAll C A D cwd data before d)).2 :=
    Linked.of_setup hX hkey hwrapped fresh
  rw [runAll_append, runAll_cons]
  obtain ⟨pp, hlinked⟩ :=
    hstart.runAll hC hX hD fun call hcall => hcalls call (by simp [hcall]) (hafter call hcall)
  exact ⟨pp, _, hlinked⟩

end Runs

/-! ## One command -/

variable (D) in
/-- The command makes no package with the id. -/
def Call.Spares (call : Call F) (id : String) : Prop :=
  (∃ file policy, call.command = .encrypt file policy) → newId D call.fresh.stamp ≠ id

variable (C A D cwd data) in
/-- The command issues a key to the user. -/
def Call.IssuesTo (call : Call F) (user : String) (d : Disk) : Prop :=
  (∃ args, call.command = .issue args ∧ args.user = user) ∧
    (call.exec C A D cwd data d).1 = .ok ()

section Step

variable {user id : String} (huser : '/' ∉ user.toList) (hid : Path.IsName id) {plaintext : Bytes}
include huser hid

/-- Decryption depends on few files. -/
theorem decryptOutcome_of_view {d d' : Disk} {pp : PublicParams G₁ G₂ Gₜ} {msk : MasterSecret F}
    (hsetup : setupOn C D data d' = .ok (pp, msk))
    (hkey : view data d' (.key user) = view data d (.key user))
    (hsealed : view data d' (.sealedDoc id) = view data d (.sealedDoc id))
    (hwrapped : view data d' (.wrappedKey id) = view data d (.wrappedKey id))
    (hdir : ∀ p, d.has p = true → d'.has p = true)
    (h : decryptOutcome C A D data user id d = .ok plaintext) :
    decryptOutcome C A D data user id d' = .ok plaintext := by
  obtain ⟨pp₀, msk₀, usk, package, -, husk, hpackage, hopen⟩ := decryptOutcome_eq_ok.1 h
  refine decryptOutcome_eq_ok.2 ⟨pp, msk, usk, package, hsetup, ?_, ?_, hopen⟩
  · rw [userKeyOn, keyFile_eq huser] at husk ⊢
    rwa [Disk.read_congr hkey]
  · exact storedOn_of_view hid hsealed hwrapped hdir hpackage

variable (hC : C.ReadsBack) (hX : D.HexReadsBack) (hD : D.ReadsFaithfully)
include hC hX hD

omit hid in
/-- **A key that opens a package of the deployment** has names that satisfy the tree and finds the document
that was sealed: the key of a linked user, and any key where the cipher opens under the right key only. -/
theorem Linked.of_open_eq_ok (hA : A.Correct) {p : ℕ} [CharP F p] (hp : 2 ^ 64 < p) {users ids : Set String}
    {pp : PublicParams G₁ G₂ Gₜ} {msk : MasterSecret F} {d : Disk}
    (hlinked : Linked C A D data users ids pp msk d) (hkey : A.Binding ∨ user ∈ users)
    {usk : UserSecretKey G₂} (husk : userKeyOn C D data user d = .ok usk) {tree : AccessTree} {n : ℕ}
    (hn : n < 2 ^ 64) (hfits : tree.Fits n) {sealedText : Bytes} {package : EncryptedPackage G₁}
    (hseals : Seals C A D pp tree sealedText package) {pp' : PublicParams G₁ G₂ Gₜ}
    (hopen : Envelope.open C A D pp' usk package = .ok plaintext) :
    tree.isSatisfiedBy usk.attributeNames = true ∧ plaintext = sealedText := by
  have hF : IndicesDistinct F (2 ^ 64) := IndicesDistinct.of_charP hp.le
  rcases hkey with hbind | hmem
  · exact Envelope.of_open_eq_ok hA hbind hF hlinked.deployed (hfits.childrenLt hn) hseals hopen
  · obtain ⟨hbeta, attrs, r, hminted⟩ := hlinked.exists_minted hC hX hD.shallow hmem huser husk
    rw [open_eq pp' hA hF hbeta hlinked.deployed hminted hfits.positive (hfits.childrenLt hn) hseals] at hopen
    split_ifs at hopen with hsat
    · refine ⟨AccessTree.isSatisfiedBy_mono (fun a ha => ?_) tree hsat, (Except.ok.inj hopen).symm⟩
      exact HashMap.mem_keys_iter.2 ((hminted.mem a).2 ha)
    · cases hopen

/-- **A new key of the same secret** opens what the old one did. -/
theorem Linked.decryptOutcome_issued (hA : A.Correct) {p : ℕ} [CharP F p] (hp : 2 ^ 64 < p)
    {users : Set String} {pp : PublicParams G₁ G₂ Gₜ} {msk : MasterSecret F} {d : Disk}
    (hlinked : Linked C A D data users {id} pp msk d) (hkey : A.Binding ∨ user ∈ users) {args : IssueArgs}
    (hargs : args.user = user) {fresh : Fresh F} {key : Issued F G₁ G₂ Gₜ}
    (hissued : issueOutcome C D data args fresh d = .ok key)
    (h : decryptOutcome C A D data user id d = .ok plaintext) :
    decryptOutcome C A D data user id (afterIssue C D data args fresh key d) = .ok plaintext := by
  subst hargs
  obtain ⟨pp₀, msk₀, usk, package, -, husk, hpackage, hopen⟩ := decryptOutcome_eq_ok.1 h
  obtain ⟨tree, sealedText, n, hn, hfits, hseals⟩ := hlinked.exists_seals hC hX hD rfl hid hpackage
  obtain ⟨hsat, rfl⟩ := hlinked.of_open_eq_ok huser hC hX hD hA hp hkey husk hn hfits hseals hopen
  -- the names of the old key are among those of the new one
  obtain ⟨input, hadmits, hbeta, hinput, -, -, -, r, hminted⟩ := issueOutcome_eq_ok hissued
  obtain ⟨hext, hmsk, hlinked'⟩ := hlinked.issued hC hX hD.shallow huser hissued
  rw [← hinput, hmsk] at hbeta
  rw [hmsk] at hminted
  have hnames : ∀ a ∈ usk.attributeNames, a ∈ input.names := fun a ha =>
    mem_mergeExisting.2 (Or.inr ⟨usk, hadmits.existing_eq_ok.2 husk, HashMap.mem_keys_iter.1 ha⟩)
  have hnew : Envelope.open C A D key.pp key.usk package = .ok plaintext := by
    rw [open_eq key.pp hA (IndicesDistinct.of_charP hp.le) hbeta hlinked'.deployed hminted hfits.positive
      (hfits.childrenLt hn) (hseals.mono hext), if_pos (AccessTree.isSatisfiedBy_mono hnames tree hsat)]
  obtain ⟨log, hview⟩ : ∃ log, view data (afterIssue C D data args fresh key d) = _ :=
    view_afterIssue huser fresh key
  have hfile : view data (afterIssue C D data args fresh key d) (.key args.user) =
      some (userKeyBytes C D key.usk) := by
    rw [hview, Function.update_of_ne (by simp), Function.update_self]
  refine decryptOutcome_eq_ok.2 ⟨key.pp, msk, key.usk, package, hlinked'.setupOn_eq hC hX hD.shallow,
    userKeyOn_of_view huser hC hX hD.shallow hfile, ?_, hnew⟩
  refine storedOn_of_view hid ?_ ?_ (fun q hq => has_afterIssue hq fresh key) hpackage
  · rw [hview]
    simp
  · rw [hview]
    simp

/-- **One command** takes no access away, if it does not make a package with the same id, and if a key that
it issues to the user is of the secret of the package. -/
theorem Linked.decryptOutcome_exec (hA : A.Correct) {p : ℕ} [CharP F p] (hp : 2 ^ 64 < p)
    {pp : PublicParams G₁ G₂ Gₜ} {msk : MasterSecret F} {d : Disk}
    (hlinked : Linked C A D data ∅ ∅ pp msk d) {call : Call F} (hcall : call.Tidy cwd data)
    (hspares : call.Spares D id)
    (hissues : call.IssuesTo C A D cwd data user d → ∃ users pp msk,
      Linked C A D data users {id} pp msk d ∧ (A.Binding ∨ user ∈ users))
    (h : decryptOutcome C A D data user id d = .ok plaintext) :
    decryptOutcome C A D data user id (call.exec C A D cwd data d).2 = .ok plaintext := by
  by_cases hissue : ∃ args, call.command = .issue args ∧ args.user = user
  · obtain ⟨args, hcommand, hargs⟩ := hissue
    obtain ⟨command, fresh⟩ := call
    obtain rfl : command = .issue args := hcommand
    have hexec := exec_cmdIssue C D data args fresh d
    change (Call.mk (.issue args) fresh).exec C A D cwd data d = _ at hexec
    rw [hexec]
    cases hissued : issueOutcome C D data args fresh d with
    | error e => exact h
    | ok key =>
      rw [hissued, Cmd.andThen_ok] at hexec
      obtain ⟨users, pp', msk', hlinked', hkey⟩ := hissues ⟨⟨args, rfl, hargs⟩, congrArg Prod.fst hexec⟩
      exact hlinked'.decryptOutcome_issued huser hid hC hX hD hA hp hkey hargs hissued h
  · obtain ⟨pp', msk', hlinked'⟩ := hlinked.exec_tidy hC hX hD.shallow hcall
    have hview : ∀ f, f ∉ call.files D →
        view data (call.exec C A D cwd data d).2 f = view data d f :=
      fun f hf => view_exec hX (hcall.avoids f) hf d
    have hpackage : File.sealedDoc id ∉ call.files D ∧ File.wrappedKey id ∉ call.files D := by
      rw [← not_or]
      intro hmem
      obtain ⟨hencrypt, hdrawn⟩ := of_package_mem_files hmem
      exact hspares hencrypt hdrawn
    exact decryptOutcome_of_view huser hid (hlinked'.setupOn_eq hC hX hD.shallow)
      (hview _ fun hmem => hissue (key_mem_files.1 hmem)) (hview _ hpackage.1) (hview _ hpackage.2)
      (fun q hq => has_exec hq call) h

end Step

/-! ## Whole runs -/

variable (C A D cwd data) in
/-- Decryption succeeds and writes the document, wherever it is told to. -/
def Decrypts (user id : String) (plaintext : Bytes) (d : Disk) : Prop :=
  ∀ out fresh, cwd.join out ≠ auditPath data →
    let result := Fs.exec (cmdDecrypt C A D cwd data id user out fresh) d
    result.1 = .ok () ∧ result.2.files.lookup (cwd.join out) = some plaintext

theorem decrypts_of_decryptOutcome {user id : String} {plaintext : Bytes} {d : Disk}
    (h : decryptOutcome C A D data user id d = .ok plaintext) :
    Decrypts C A D cwd data user id plaintext d := by
  obtain ⟨pp, msk, usk, package, hsetup, husk, hpackage, hopen⟩ := decryptOutcome_eq_ok.1 h
  intro out fresh hout result
  have hresult : result = decided D cwd data id user out fresh (.ok plaintext)
      (d.createDirAll (packagesDir data)) := by
    have hkey : keyOutcome C D data user d = .ok (pp, usk) := by
      rw [keyOutcome, hsetup, ok_bind, husk]
      rfl
    change Fs.exec _ d = _
    rw [exec_cmdDecrypt, hkey, Cmd.andThen_ok, hpackage, Cmd.andThen_ok, hopen]
  rw [hresult, decided]
  exact ⟨rfl, by rw [Disk.lookup_append_ne hout, Disk.lookup_write_self]⟩

/-- **Access is kept**: if a user can decrypt a package after a run of commands, then also after any
further ones, setups among them, and it is the same document. The package's id is not drawn again, and
where a further command issues a key to the user, the last setup before it came when the package was not
there. A key that the user had at that setup opens nothing but what it was issued for, as the cipher opens
under the right key only; without that assumption the user had no key. -/
theorem decrypt_kept (hC : C.ReadsBack) (hX : D.HexReadsBack) (hD : D.ReadsFaithfully)
    (hA : A.Correct) {p : ℕ} [CharP F p] (hp : 2 ^ 64 < p) {d₀ : Disk}
    (hd₀ : view data d₀ .setup = none) {calls calls' : List (Call F)}
    (hcalls : ∀ call ∈ calls ++ calls', call.Tidy cwd data) {user id : String}
    (huser : '/' ∉ user.toList) (hid : Path.IsName id) (hspares : ∀ call ∈ calls', call.Spares D id)
    (hissues : ∀ before call after, calls' = before ++ call :: after →
      call.IssuesTo C A D cwd data user (runAll C A D cwd data (calls ++ before) d₀) →
        A.Binding ∧ SetUpFor C A D cwd data ∅ {id} (calls ++ before) d₀ ∨
          SetUpFor C A D cwd data {user} {id} (calls ++ before) d₀) {out : String} {fresh : Fresh F}
    (h : (Fs.exec (cmdDecrypt C A D cwd data id user out fresh)
      (runAll C A D cwd data calls d₀)).1 = .ok ()) :
    ∃ plaintext, Decrypts C A D cwd data user id plaintext (runAll C A D cwd data calls d₀) ∧
      Decrypts C A D cwd data user id plaintext (runAll C A D cwd data (calls ++ calls') d₀) := by
  obtain ⟨plaintext, hopens⟩ := exec_cmdDecrypt_eq_ok.1 h
  refine ⟨plaintext, decrypts_of_decryptOutcome hopens, decrypts_of_decryptOutcome ?_⟩
  induction calls' using List.reverseRecOn with
  | nil => rwa [List.append_nil]
  | append_singleton calls' call ih =>
    have hbefore : ∀ c ∈ calls ++ calls', c.Tidy cwd data := by
      intro c hc
      exact hcalls c (by rw [← List.append_assoc]; exact List.mem_append_left _ hc)
    have hkept := ih hbefore (fun c hc => hspares c (by simp [hc])) fun before c after heq =>
      hissues before c (after ++ [call]) (by rw [heq]; simp)
    obtain ⟨pp, msk, hlinked⟩ : ∃ pp msk, Linked C A D data ∅ ∅ pp msk
        (runAll C A D cwd data (calls ++ calls') d₀) := by
      rcases setup_runAll hC hX hD.shallow hd₀ hbefore with hnone | hlinked
      · obtain ⟨msg, hmsg⟩ := setupOn_of_view_none (C := C) (D := D) hnone
        obtain ⟨pp, msk, usk, package, hsetup, -⟩ := decryptOutcome_eq_ok.1 hkept
        cases hmsg.symm.trans hsetup
      · exact hlinked
    rw [← List.append_assoc, runAll_append, runAll_cons, runAll_nil]
    refine hlinked.decryptOutcome_exec huser hid hC hX hD hA hp (hcalls call (by simp))
      (hspares call (by simp)) (fun hissue => ?_) hkept
    rcases hissues calls' call [] rfl hissue with ⟨hbind, hsetup⟩ | hsetup
    · obtain ⟨pp', msk', hlinked'⟩ := hsetup.linked hC hX hD.shallow hbefore
      exact ⟨∅, pp', msk', hlinked', Or.inl hbind⟩
    · obtain ⟨pp', msk', hlinked'⟩ := hsetup.linked hC hX hD.shallow hbefore
      exact ⟨{user}, pp', msk', hlinked', Or.inr rfl⟩

/-- Alice opens the package at first. -/
theorem decryptOutcome_exampleSealed : ∃ plaintext,
    decryptOutcome exponents boxes serdeJsonUnlimited exampleData "alice" exampleId
      (runAll exponents boxes serdeJsonUnlimited exampleCwd exampleData (exampleRun ++ [exampleEncrypt])
        emptyDisk) = .ok plaintext := by
  obtain ⟨w, registry, h, -, ht, hbeta⟩ := exists_represents_exampleEncrypt
  obtain ⟨rawTree, hparse, hexec⟩ := exec_cmdDecrypt_of_represents exampleCwd readsBack_exponents
    hexReadsBack_serdeJsonUnlimited readsBack_serdeJsonUnlimited.shallow correct_boxes
    (by norm_num : 2 ^ 64 < scalarModulus) hbeta h ht (lastStored_example _)
    (fun _ _ => readsBack_serdeJsonUnlimited.pretty _) "alice" (by decide)
    (isSome_keyFile_example h ht) "copy" exampleFresh
  obtain rfl : AccessTree.leaf "a" = rawTree := Except.ok.inj hparse
  rw [entitled_example, if_pos (by decide)] at hexec
  exact exec_cmdDecrypt_eq_ok.1 (congrArg Prod.fst hexec)

/-- What happens to Alice: her attribute is revoked, she is issued another one, and there is a setup. -/
def exampleLater : List (Call Scalar) :=
  [⟨.revokeAttribute "a", exampleFresh⟩, ⟨.issue (issueToAlice "b"), exampleFresh⟩,
    ⟨.setup, exampleFresh⟩]

/-- Alice keeps access to the package. -/
theorem decrypt_kept_alice : ∃ plaintext, Decrypts exponents boxes serdeJsonUnlimited exampleCwd exampleData
    "alice" exampleId plaintext (runAll exponents boxes serdeJsonUnlimited exampleCwd exampleData
      (exampleRun ++ [exampleEncrypt] ++ exampleLater) emptyDisk) := by
  have halice : '/' ∉ "alice".toList := by decide
  have hregular : ∀ call ∈ exampleRun ++ [exampleEncrypt] ++ exampleLater,
      call.Tidy exampleCwd exampleData := by
    refine List.forall_mem_cons.2 ⟨fun h => absurd rfl h, List.forall_mem_cons.2 ⟨fun _ => trivial,
      List.forall_mem_cons.2 ⟨fun _ => halice, List.forall_mem_cons.2 ⟨fun _ => ?_,
      List.forall_mem_cons.2 ⟨fun _ => trivial, List.forall_mem_cons.2 ⟨fun _ => halice,
      List.forall_mem_singleton.2 fun h => absurd rfl h⟩⟩⟩⟩⟩⟩
    exact (by decide : ("a" : String).length < 2 ^ 64)
  have hspares : ∀ call ∈ exampleLater, call.Spares serdeJsonUnlimited exampleId := by
    have hissue : ∀ command, (∀ file policy, command ≠ .encrypt file policy) →
        (Call.mk command exampleFresh).Spares serdeJsonUnlimited exampleId := by
      rintro command hcommand ⟨file, policy, h⟩
      exact absurd h (hcommand file policy)
    exact List.forall_mem_cons.2 ⟨hissue _ (by simp), List.forall_mem_cons.2 ⟨hissue _ (by simp),
      List.forall_mem_singleton.2 (hissue _ (by simp))⟩⟩
  have hsetup : ∀ before call after, exampleLater = before ++ call :: after →
      call.IssuesTo exponents boxes serdeJsonUnlimited exampleCwd exampleData "alice"
        (runAll exponents boxes serdeJsonUnlimited exampleCwd exampleData
          (exampleRun ++ [exampleEncrypt] ++ before) emptyDisk) →
      boxes.Binding ∧ SetUpFor exponents boxes serdeJsonUnlimited exampleCwd exampleData ∅ {exampleId}
        (exampleRun ++ [exampleEncrypt] ++ before) emptyDisk ∨
      SetUpFor exponents boxes serdeJsonUnlimited exampleCwd exampleData {"alice"} {exampleId}
        (exampleRun ++ [exampleEncrypt] ++ before) emptyDisk := by
    rintro before call after heq ⟨⟨args, hcommand, -⟩, -⟩
    refine Or.inl ⟨binding_boxes, [], exampleFresh, exampleRun.tail ++ [exampleEncrypt] ++ before, rfl, ?_,
      nofun, fun _ _ => rfl⟩
    -- the setup comes after the key
    have hbefore : before = [⟨.revokeAttribute "a", exampleFresh⟩] := by
      rcases before with _ | ⟨first, _ | ⟨second, _ | ⟨third, rest⟩⟩⟩
      · obtain ⟨rfl, -⟩ := List.cons.inj heq
        cases hcommand
      · obtain ⟨rfl, -⟩ := List.cons.inj heq
        rfl
      · obtain ⟨-, heq⟩ := List.cons.inj heq
        obtain ⟨-, heq⟩ := List.cons.inj heq
        obtain ⟨rfl, -⟩ := List.cons.inj heq
        cases hcommand
      · have hlength := congrArg List.length heq
        simp [exampleLater] at hlength
    subst hbefore
    intro call hcall
    simp only [exampleRun, exampleEncrypt, List.tail_cons, List.cons_append, List.nil_append,
      List.mem_cons, List.not_mem_nil, or_false] at hcall
    rcases hcall with rfl | rfl | rfl | rfl <;> simp
  obtain ⟨plaintext, hopens⟩ := decryptOutcome_exampleSealed
  obtain ⟨plaintext', -, hkept⟩ := decrypt_kept readsBack_exponents hexReadsBack_serdeJsonUnlimited
    readsBack_serdeJsonUnlimited.faithfully correct_boxes (by norm_num : 2 ^ 64 < scalarModulus)
    (rfl : view exampleData emptyDisk .setup = none) hregular halice
    (isName_newId hexReadsBack_serdeJsonUnlimited exampleStamp) hspares hsetup
    (exec_cmdDecrypt_eq_ok.2 ⟨plaintext, hopens⟩ : (Fs.exec (cmdDecrypt exponents boxes
      serdeJsonUnlimited exampleCwd exampleData exampleId "alice" "copy" exampleFresh) _).1 = .ok ())
  exact ⟨plaintext', hkept⟩

/-! ## A second setup -/

/-- The scalars of a second setup. -/
def restartFresh : Fresh Scalar :=
  { exampleFresh with scalars := fun n => if n = 0 then (2 : ℕ) else 1 }

/-- The master secret that they make. -/
def restartSecret : MasterSecret Scalar := ⟨(2 : ℕ), 1⟩

/-- A generator that draws zeros. -/
def zeroFresh : Fresh Scalar := { exampleFresh with scalars := fun _ => 0 }

/-- A setup in a deployment, after which Alice is issued the attribute `a` once more. -/
def exampleRestart : List (Call Scalar) :=
  [⟨.setup, restartFresh⟩, ⟨.registerAuthority "root" "", exampleFresh⟩,
    ⟨.issue (issueToAlice "a"), zeroFresh⟩]

/-- The deployment with the key of Alice and the package. -/
theorem exists_represents_exampleSealed : ∃ (w : World Scalar Scalar Scalar Scalar) (filed : Filed Scalar)
    (usk : UserSecretKey Scalar), Represents exponents serdeJsonUnlimited exampleData
      (runAll exponents boxes serdeJsonUnlimited exampleCwd exampleData (exampleRun ++ [exampleEncrypt])
        emptyDisk) w ∧
    w.msk = ⟨1, 1⟩ ∧ w.registry = AuthorityRegistry.new.register "root" [] ∧ w.revocation = none ∧
    w.packages exampleId = some filed ∧
    (∃ rng, Encrypted exponents boxes serdeJsonUnlimited w.pp exampleFresh.dek (.leaf "a@epoch0") 1 rng
      filed.package.keyCiphertext) ∧
    w.keys "alice" = some usk ∧ mergeExisting ["a@epoch0"] (.ok usk) = ["a@epoch0"] := by
  have hC := readsBack_exponents
  have hX := hexReadsBack_serdeJsonUnlimited
  have hD := readsBack_serdeJsonUnlimited.shallow
  obtain ⟨w, h, -, ht, hmsk, hregistry, hrevocation⟩ :=
    exists_represents_firstIssue (issueToAlice "a") rfl (by decide) rfl
  change Represents exponents serdeJsonUnlimited exampleData
    (runAll exponents boxes serdeJsonUnlimited exampleCwd exampleData exampleRun emptyDisk) w at h
  change w.Tells exponents boxes serdeJsonUnlimited [exampleIssued] at ht
  rw [runAll_append, runAll_cons, runAll_nil]
  generalize runAll exponents boxes serdeJsonUnlimited exampleCwd exampleData exampleRun emptyDisk = d
    at h
  have hlist : w.revocationList exampleData = ⟨revocationPath exampleData, default⟩ := by
    rw [World.revocationList, hrevocation]
    rfl
  have hgranted : grantedTags [exampleIssued] "alice" = ["a@epoch0"] := by decide
  obtain ⟨usk, hkey, hnames⟩ : ∃ usk, w.keys "alice" = some usk ∧
      mergeExisting ["a@epoch0"] (.ok usk) = ["a@epoch0"] := by
    rcases ht.keys "alice" with ⟨-, htags⟩ | ⟨usk, attrs, r, hkey, hminted, hattrs⟩
    · rw [hgranted] at htags
      cases htags
    · refine ⟨usk, hkey, mergeExisting_of_subset fun a ha => ?_⟩
      rwa [hminted.mem, hattrs, hgranted] at ha
  obtain ⟨prepared, hprepared⟩ := exists_encryptOutcome exampleFresh (h.setupOn_eq hC hX hD)
    (h.revocationOn_eq hD) (rfl : parse "a" = .ok (.leaf "a"))
  have hrng : prepared.rng = fun _ => 1 := rng_of_encryptOutcome_eq_ok hprepared rfl
  obtain ⟨pp, revocation, rawTree, hsetup, hrev, hparse, htree, calls, hcalls, hpp⟩ :=
    encryptOutcome_eq_ok hprepared
  obtain ⟨rfl, hmsk'⟩ := Prod.mk.inj (Except.ok.inj (hsetup.symm.trans (h.setupOn_eq hC hX hD)))
  obtain rfl := Except.ok.inj (hrev.symm.trans (h.revocationOn_eq hD))
  obtain rfl : AccessTree.leaf "a" = rawTree := Except.ok.inj hparse
  have hleaf : prepared.tree = .leaf "a@epoch0" := by
    rw [htree, hlist]
    exact congrArg AccessTree.leaf
      (by decide : RevocationList.tag ⟨revocationPath exampleData, default⟩ "a" = "a@epoch0")
  have hsaved := h.setup (hpp ▸ h.deployed.registerAll calls : Deployed exponents w.msk prepared.pp)
  rw [← hmsk'] at hsaved
  have hread := hsaved.read_eq (f := .authorities) rfl
  have hleaves : ∀ a ∈ prepared.tree.leaves, a ∈ prepared.pp.attributes := by
    intro a ha
    rw [hpp, mem_registerAll, hcalls]
    exact Or.inl ha
  obtain ⟨package, hsealed⟩ : ∃ package, sealOutcome exponents boxes serdeJsonUnlimited exampleCwd
      "/data/authorities.json" "a" exampleFresh prepared _ = .ok package :=
    exists_sealOutcome correct_boxes "a" exampleFresh hread hleaves
  obtain ⟨plaintext, -, hseals⟩ := sealOutcome_eq_ok hsealed
  have henc := encrypted_of_sealOutcome_eq_ok hsealed
  rw [hleaf] at hseals henc
  rw [hrng] at henc
  have hfits : (AccessTree.leaf "a@epoch0").Fits "a".length := (parse_fits hparse).of_gates_eq rfl
  have hreadable := readable_of_seals (by decide) hfits hseals
  have hexec := exec_cmdEncrypt exponents boxes serdeJsonUnlimited exampleCwd exampleData
    "/data/authorities.json" "a" exampleFresh d
  change exampleEncrypt.exec exponents boxes serdeJsonUnlimited exampleCwd exampleData d = _ at hexec
  rw [hexec, hprepared, Cmd.andThen_ok, hsealed, Cmd.andThen_ok]
  refine ⟨_, ⟨package, PackageStore.manifestBytes serdeJsonUnlimited
    (storedName "/data/authorities.json") package exampleFresh.stamp⟩, usk,
    hsaved.afterEncrypt hX _ _ exampleFresh hreadable, hmsk, hregistry, hrevocation, ?_, ⟨_, henc⟩, hkey,
    hnames⟩
  exact Function.update_self exampleId _ w.packages

/-- A key of the second secret does not open a package of the first one. -/
theorem open_restartKey {pp pp' : PublicParams Scalar Scalar Scalar} (hpp : Deployed exponents ⟨1, 1⟩ pp)
    (hpp' : Deployed exponents restartSecret pp') {attrs : List String} (hattrs : attrs = ["a@epoch0"])
    {usk : UserSecretKey Scalar} {rng rng' : Rng Scalar}
    (hkey : keygen pp' restartSecret "alice" attrs (fun _ => 0) = .ok (usk, rng)) {dek : ByteArr 32}
    {package : EncryptedPackage Scalar} (h : Encrypted exponents boxes serdeJsonUnlimited pp dek
      (.leaf "a@epoch0") 1 rng' package.keyCiphertext) :
    Envelope.open exponents boxes serdeJsonUnlimited pp' usk package =
      Outcome.err (.keyWrap .policyNotSatisfied) := by
  subst hattrs
  have hregistered : "a@epoch0" ∈ pp.attributes := by
    obtain ⟨c, hc⟩ : ∃ c, pp.attributes.lookup "a@epoch0" = some c := by
      have hleaves := h.leaves
      generalize package.keyCiphertext.leaves = leaves at hleaves
      cases hleaves with
      | cons hleaf _ =>
        obtain ⟨c, hc, -⟩ := hleaf
        exact ⟨c, hc⟩
    exact HashMap.mem_of_lookup hc
  have hblinding := recoverBlinding_of_keygen_zero (IndicesDistinct.of_charP (le_refl scalarModulus))
    hpp' hpp hkey (List.forall_mem_singleton.2 hregistered)
    (by decide : (AccessTree.leaf "a@epoch0").Positive) (by decide) (by decide) h
  have hkdf : kdf exponents boxes ((1 * (1 : Scalar) * (restartSecret.alpha * restartSecret.beta⁻¹)) •
      exponents.pairing exponents.g1 exponents.g2) ≠ kdf exponents boxes ((1 : Scalar) • pp.eggAlpha) := by
    have hpairing : exponents.pairing exponents.g1 exponents.g2 = 1 := mul_one (1 : Scalar)
    have hnew : (1 * (1 : Scalar) * (restartSecret.alpha * restartSecret.beta⁻¹)) • (1 : Scalar) =
        (2 : ℕ) := by
      rw [one_mul, one_mul, smul_eq_mul, mul_one]
      exact (congrArg _ inv_one).trans (mul_one _)
    rw [hpp.eggAlpha, hpairing, hnew, one_smul, one_smul]
    decide
  rw [Envelope.open, decryptKey_of_kdf_ne binding_boxes h hblinding hkdf, Outcome.mapErr_err]
  rfl

/-- After a second setup Alice is issued her attribute again, and the key is one of the second secret. -/
theorem exists_issue_restarted {w : World Scalar Scalar Scalar Scalar} {usk : UserSecretKey Scalar} {d : Disk}
    (h : Represents exponents serdeJsonUnlimited exampleData d
      ((w.restarted exponents serdeJsonUnlimited restartFresh).withRegistry
        (AuthorityRegistry.new.register "root" [])))
    (hrevocation : w.revocation = none) (hkey : w.keys "alice" = some usk)
    (hnames : mergeExisting ["a@epoch0"] (.ok usk) = ["a@epoch0"]) :
    ∃ key rng, issueOutcome exponents serdeJsonUnlimited exampleData (issueToAlice "a") zeroFresh d =
        .ok key ∧ key.msk = restartSecret ∧ Deployed exponents restartSecret key.pp ∧
      keygen key.pp restartSecret "alice" ["a@epoch0"] (fun _ => 0) = .ok (key.usk, rng) := by
  have hC := readsBack_exponents
  have hX := hexReadsBack_serdeJsonUnlimited
  have hD := readsBack_serdeJsonUnlimited.shallow
  have hrev : revocationOn serdeJsonUnlimited exampleData d =
      .ok ⟨revocationPath exampleData, default⟩ := by
    rw [h.revocationOn_eq hD, World.revocationList]
    exact congrArg _ (congrArg _ (congrArg (Option.getD · default) hrevocation))
  have hadmits : Admits exponents serdeJsonUnlimited exampleData (issueToAlice "a") d
      ⟨_, _, _, ⟨revocationPath exampleData, default⟩, [.flag "a"], .ok usk⟩ :=
    ⟨h.setupOn_eq hC hX hD, h.registryOn_eq hD, hrev, rfl, rfl, List.forall_mem_singleton.2 rfl,
      congrArg Cmd.caught (h.userKeyOn_eq hC hX hD (by decide : '/' ∉ "alice".toList) hkey)⟩
  have htags : (resolved [.flag "a"]).map
      (RevocationList.tag ⟨revocationPath exampleData, default⟩) = ["a@epoch0"] := by decide
  have hexisting : ∀ a ∈ usk.attributes, a ∈ ["a@epoch0"] := by
    intro a ha
    rw [← hnames, mem_mergeExisting]
    exact Or.inr ⟨usk, rfl, ha⟩
  obtain ⟨key, hissued⟩ := exists_issueOutcome zeroFresh hadmits (one_ne_zero : (1 : Scalar) ≠ 0)
    fun usk' husk a ha => by
      obtain rfl := Except.ok.inj husk
      rw [htags]
      exact Or.inl (hexisting a ha)
  obtain ⟨rng, hkeygen⟩ := exists_keygen_of_issueOutcome_eq_ok hadmits hissued rfl
  rw [IssueInput.names, htags, hnames] at hkeygen
  obtain ⟨input, hadmits', -, hmsk, -, -, ⟨calls, -, hpp⟩, -⟩ := issueOutcome_eq_ok hissued
  obtain ⟨hpp', hmsk', -, -⟩ := h.admits hC hX hD hadmits'
  refine ⟨key, rng, hissued, hmsk.trans hmsk', ?_, hkeygen⟩
  rw [hpp, hpp']
  exact h.deployed.registerAll calls

/-- **A second setup takes access away** as soon as the user is issued a key again. -/
theorem decryptOutcome_exampleRestart :
    decryptOutcome exponents boxes serdeJsonUnlimited exampleData "alice" exampleId
      (runAll exponents boxes serdeJsonUnlimited exampleCwd exampleData
        (exampleRun ++ [exampleEncrypt] ++ exampleRestart) emptyDisk) =
          Outcome.err (EnvelopeError.keyWrap .policyNotSatisfied).toText := by
  have hC := readsBack_exponents
  have hX := hexReadsBack_serdeJsonUnlimited
  have hD := readsBack_serdeJsonUnlimited.shallow
  have halice : '/' ∉ (issueToAlice "a").user.toList := by decide
  obtain ⟨w, filed, usk, h, hmsk, -, hrevocation, hfiled, ⟨rng, henc⟩, hkey, hnames⟩ :=
    exists_represents_exampleSealed
  rw [runAll_append]
  generalize runAll exponents boxes serdeJsonUnlimited exampleCwd exampleData
    (exampleRun ++ [exampleEncrypt]) emptyDisk = d at h
  have hstart := (h.restarted exponents serdeJsonUnlimited restartFresh).registerAuthority boxes exampleCwd
    hD "root" "" exampleFresh
  rw [exampleRestart, runAll_cons, exec_setup, runAll_cons, runAll_cons, runAll_nil]
  generalize (Call.exec exponents boxes serdeJsonUnlimited exampleCwd exampleData
    ⟨.registerAuthority "root" "", exampleFresh⟩
    (Fs.exec (cmdSetup exponents serdeJsonUnlimited exampleData restartFresh) d).2).2 = d₁ at hstart ⊢
  obtain ⟨key, rng', hissued, hmsk', hdeployed, hkeygen⟩ :=
    exists_issue_restarted hstart hrevocation hkey hnames
  have hafter := hstart.afterIssue halice zeroFresh hdeployed hmsk'
  have hold := h.deployed
  rw [hmsk] at hold
  have hpackage := hafter.packagesDir.storedOn_eq hC hX hD hfiled
    (readsBack_serdeJsonUnlimited.pretty _)
  have husk := hafter.userKeyOn_eq hC hX hD halice
    (show Function.update w.keys "alice" (some key.usk) "alice" = _ from Function.update_self ..)
  have hopen : Envelope.open exponents boxes serdeJsonUnlimited key.pp key.usk filed.package = _ :=
    open_restartKey hold hdeployed rfl hkeygen henc
  have hdecrypt : decryptOutcome exponents boxes serdeJsonUnlimited exampleData "alice" exampleId
      (afterIssue exponents serdeJsonUnlimited exampleData (issueToAlice "a") zeroFresh key d₁) =
        Outcome.err (EnvelopeError.keyWrap .policyNotSatisfied).toText := by
    unfold decryptOutcome keyOutcome
    rw [hafter.setupOn_eq hC hX hD, ok_bind]
    change (userKeyOn exponents serdeJsonUnlimited exampleData (issueToAlice "a").user _ >>= _) >>= _ = _
    rw [husk, ok_bind, ok_bind, hpackage, ok_bind]
    change Outcome.mapErr EnvelopeError.toText
      (Envelope.open exponents boxes serdeJsonUnlimited key.pp key.usk filed.package) = _
    rw [hopen]
    rfl
  rwa [exec_issue, exec_cmdIssue, hissued, Cmd.andThen_ok]

/-! ## A user with the name of a file -/

/-- A key for a user whose name leads to the parameters. -/
def exampleTraversal : Call Scalar := ⟨.issue ⟨"root", "../setup", ["a"], [], []⟩, exampleFresh⟩

/-- A user key does not pass for a setup, nor a setup for a user key. -/
theorem setupOn_userKeyBytes {d : Disk} {usk : UserSecretKey Scalar}
    (h : d.files.lookup (setupPath exampleData) =
      some (userKeyBytes exponents serdeJsonUnlimited usk)) :
    ∃ msg, (setupOn exponents serdeJsonUnlimited exampleData d :
      Outcome String (PublicParams Scalar Scalar Scalar × MasterSecret Scalar)) = Outcome.err msg := by
  obtain ⟨msg, hmsg⟩ : ∃ msg, SetupBundleDto.fromJson
      (userKeyDto exponents serdeJsonUnlimited usk).toJson = .error msg := ⟨_, rfl⟩
  refine ⟨(AbeError.encoding msg).toText, ?_⟩
  rw [setupOn, Disk.read_of_lookup h, userKeyBytes, Fs.textOf_utf8, Outcome.mapErr_ok, ok_bind,
    setupBundleFromJson, userKeyToJson, readsBack_serdeJsonUnlimited.pretty, ok_bind, hmsg]
  rfl

theorem userKeyOn_setupBytes {d : Disk} {pp : PublicParams Scalar Scalar Scalar}
    {msk : MasterSecret Scalar} (h : d.files.lookup (setupPath exampleData) =
      some (setupBytes exponents serdeJsonUnlimited pp msk)) :
    ∃ msg, (userKeyOn exponents serdeJsonUnlimited exampleData "../setup" d :
      Outcome String (UserSecretKey Scalar)) = Outcome.err msg := by
  obtain ⟨msg, hmsg⟩ : ∃ msg, UserSecretKeyDto.fromJson
      (setupBundleDto exponents serdeJsonUnlimited pp msk).toJson = .error msg := ⟨_, rfl⟩
  refine ⟨(AbeError.encoding msg).toText, ?_⟩
  rw [userKeyOn, show keyFile exampleData "../setup" = setupPath exampleData by decide,
    Disk.read_of_lookup h, setupBytes, Fs.textOf_utf8, Outcome.mapErr_ok, ok_bind,
    userKeyFromJson, setupBundleToJson, readsBack_serdeJsonUnlimited.pretty, ok_bind, hmsg]
  rfl

/-- **A user with the name of the parameters** locks everyone out. -/
theorem decryptOutcome_exampleTraversal : ∃ msg,
    decryptOutcome exponents boxes serdeJsonUnlimited exampleData "alice" exampleId
      (runAll exponents boxes serdeJsonUnlimited exampleCwd exampleData
        (exampleRun ++ [exampleEncrypt] ++ [exampleTraversal]) emptyDisk) = Outcome.err msg := by
  have hC := readsBack_exponents
  have hX := hexReadsBack_serdeJsonUnlimited
  have hD := readsBack_serdeJsonUnlimited.shallow
  obtain ⟨w, filed, usk, h, hmsk, hregistry, hrevocation, -⟩ := exists_represents_exampleSealed
  rw [runAll_append]
  generalize runAll exponents boxes serdeJsonUnlimited exampleCwd exampleData
    (exampleRun ++ [exampleEncrypt]) emptyDisk = d at h
  have hsetup : d.files.lookup (setupPath exampleData) =
      some (setupBytes exponents serdeJsonUnlimited w.pp w.msk) := by
    rw [setupPath_eq]
    exact congrFun h.view .setup
  obtain ⟨msg, hload⟩ := userKeyOn_setupBytes hsetup
  have hadmits : Admits exponents serdeJsonUnlimited exampleData ⟨"root", "../setup", ["a"], [], []⟩ d
      ⟨w.pp, w.msk, w.registry, w.revocationList exampleData, [.flag "a"], .error msg⟩ := by
    refine ⟨h.setupOn_eq hC hX hD, h.registryOn_eq hD, h.revocationOn_eq hD, ?_, rfl, ?_,
      congrArg Cmd.caught hload⟩
    · rw [World.revocationList, hrevocation]
      rfl
    · rw [hregistry]
      exact List.forall_mem_singleton.2 rfl
  have hbeta : w.msk.beta ≠ 0 := by
    rw [hmsk]
    exact (one_ne_zero : (1 : Scalar) ≠ 0)
  obtain ⟨key, hissued⟩ := exists_issueOutcome exampleFresh hadmits hbeta fun usk' husk => by cases husk
  have hlookup : (afterIssue exponents serdeJsonUnlimited exampleData ⟨"root", "../setup", ["a"], [], []⟩
      exampleFresh key d).files.lookup (setupPath exampleData) =
        some (userKeyBytes exponents serdeJsonUnlimited key.usk) := by
    have hfile : keyFile exampleData "../setup" = setupPath exampleData := by decide
    rw [afterIssue, Disk.lookup_append_ne (by decide), hfile, Disk.lookup_write_self]
  obtain ⟨msg', hmsg'⟩ := setupOn_userKeyBytes hlookup
  refine ⟨msg', ?_⟩
  rw [runAll_cons, runAll_nil, exampleTraversal, exec_issue, exec_cmdIssue, hissued, Cmd.andThen_ok,
    decryptOutcome, keyOutcome, hmsg']
  rfl

/-- **Access can be lost**: Alice opens the package, and after a second setup with a new key for her, or
after a key for a user whose name leads to the parameters, she does not. -/
theorem not_kept_exampleRestart :
    (Fs.exec (cmdDecrypt exponents boxes serdeJsonUnlimited exampleCwd exampleData exampleId "alice" "copy"
      exampleFresh) (runAll exponents boxes serdeJsonUnlimited exampleCwd exampleData
        (exampleRun ++ [exampleEncrypt]) emptyDisk)).1 = .ok () ∧
    (Fs.exec (cmdDecrypt exponents boxes serdeJsonUnlimited exampleCwd exampleData exampleId "alice" "copy"
      exampleFresh) (runAll exponents boxes serdeJsonUnlimited exampleCwd exampleData
        (exampleRun ++ [exampleEncrypt] ++ exampleRestart) emptyDisk)).1 ≠ .ok () ∧
    (Fs.exec (cmdDecrypt exponents boxes serdeJsonUnlimited exampleCwd exampleData exampleId "alice" "copy"
      exampleFresh) (runAll exponents boxes serdeJsonUnlimited exampleCwd exampleData
        (exampleRun ++ [exampleEncrypt] ++ [exampleTraversal]) emptyDisk)).1 ≠ .ok () := by
  refine ⟨exec_cmdDecrypt_eq_ok.2 decryptOutcome_exampleSealed, ?_, ?_⟩
  · rw [Ne, exec_cmdDecrypt_eq_ok, decryptOutcome_exampleRestart]
    rintro ⟨plaintext, h⟩
    cases h
  · obtain ⟨msg, hmsg⟩ := decryptOutcome_exampleTraversal
    rw [Ne, exec_cmdDecrypt_eq_ok, hmsg]
    rintro ⟨plaintext, h⟩
    cases h

end SecureABE.Cli
