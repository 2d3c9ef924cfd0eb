import SecureABE.Cli.Runs

/-!
# Who can open what

After a setup and a run of commands, a user's key opens a stored package exactly if the attributes
that the user was entitled to at the epochs of the package satisfy its policy (`cmdDecrypt_after_run`).
`entitled` reads these attributes off the history of the run.

The commands write where they are told to. A run in which `decrypt` is told to write over a file of the
deployment is not covered, and it can lock everyone out (`cmdDecrypt_after_overwrite`).
-/

namespace SecureABE.Cli

open Rust SecureABE.Core SecureABE.Policy SecureABE.Revocation SecureABE.Authorities SecureABE.Audit
  SecureABE.Envelope SecureABE.Storage

variable {F G₁ G₂ Gₜ : Type} [Field F] [DecidableEq F] [AddCommGroup G₁] [Module F G₁]
  [AddCommGroup G₂] [Module F G₂] [AddCommGroup Gₜ] [Module F Gₜ]
variable {C : Curve F G₁ G₂ Gₜ} {A : Cipher} {D : Codec} {cwd data : Path}

/-- The attributes that a user was issued while their epochs were those of a revocation list. -/
def entitled (past : List Happening) (user : String) (revocation : RevocationList) : List String :=
  past.flatMap fun
    | .issued user' attrs then_ => if user' = user then
        attrs.filter fun a => then_.currentEpoch a = revocation.currentEpoch a
      else []
    | .stored .. => []

/-- A user holds the tag of an attribute exactly if entitled to the attribute. -/
theorem tag_mem_grantedTags {past : List Happening} {user : String} {revocation : RevocationList}
    {a : String} :
    revocation.tag a ∈ grantedTags past user ↔ a ∈ entitled past user revocation := by
  unfold grantedTags entitled
  rw [List.mem_flatMap, List.mem_flatMap]
  refine exists_congr fun e => and_congr_right fun _ => ?_
  cases e with
  | stored id policy plaintext then_ => simp
  | issued user' attrs then_ =>
    by_cases hu : user' = user
    · simp only [if_pos hu]
      exact tag_mem_map_tag
    · simp [hu]

omit [DecidableEq F] in
/-- A package under a policy that is not nested too deeply is read back. -/
theorem World.Tells.readsBack (hD : D.ReadsShallow) {w : World F G₁ G₂ Gₜ} {past : List Happening}
    (ht : w.Tells C A D past) {id policy : String} {plaintext : Bytes} {revocation : RevocationList}
    (hlast : lastStored past id = some (.stored id policy plaintext revocation)) {tree : AccessTree}
    (hparse : parse policy = .ok tree) (hdepth : tree.gateDepth ≤ 41) :
    ∀ filed, w.packages id = some filed → filed.ReadsBack C D := by
  intro filed hfiled
  obtain ⟨filed', rawTree, hfiled', -, hparse', hseals⟩ := ht.packages id policy plaintext revocation hlast
  obtain rfl := Option.some.inj (hfiled.symm.trans hfiled')
  obtain rfl := Except.ok.inj (hparse.symm.trans hparse')
  have hfits := (parse_fits hparse).of_gates_eq (gates_retagTree tree revocation)
  rw [← hseals.tree_eq] at hfits
  refine hD _ ((depth_ciphertextDto fun g hg => (hfits g hg).1.trans (hfits g hg).2.1).2 ?_)
  change filed.package.keyCiphertext.tree.gateDepth ≤ 41
  rwa [hseals.tree_eq, gateDepth_retagTree]

/-- What decryption does in a deployment with a history. -/
theorem exec_cmdDecrypt_of_represents (cwd : Path) (hC : C.ReadsBack) (hX : D.HexReadsBack)
    (hD : D.ReadsShallow) (hA : A.Correct) {p : ℕ} [CharP F p] (hp : 2 ^ 64 < p) {d : Disk} {w : World F G₁ G₂ Gₜ}
    (hbeta : w.msk.beta ≠ 0) (h : Represents C D data d w) {past : List Happening}
    (ht : w.Tells C A D past) {id policy : String} {plaintext : Bytes}
    {revocation : RevocationList}
    (hlast : lastStored past id = some (.stored id policy plaintext revocation))
    (hread : ∀ filed, w.packages id = some filed → filed.ReadsBack C D) (user : String)
    (huser : '/' ∉ user.toList) (hkey : (d.files.lookup (keyFile data user)).isSome) (out : String)
    (fresh : Fresh F) : ∃ rawTree, parse policy = .ok rawTree ∧
      Fs.exec (cmdDecrypt C A D cwd data id user out fresh) d =
        decided D cwd data id user out fresh
          (if rawTree.isSatisfiedBy (entitled past user revocation) then .ok plaintext
            else Outcome.err (.keyWrap .policyNotSatisfied))
          (d.createDirAll (packagesDir data)) := by
  obtain ⟨filed, rawTree, hfiled, hpolicy, hparse, hseals⟩ :=
    ht.packages id policy plaintext revocation hlast
  have hdir := h.packagesDir
  rcases ht.keys user with ⟨hnone, -⟩ | ⟨usk, attrs, r, hsome, hminted, hattrs⟩
  · have hlookup := congrFun h.view (.key user)
    rw [World.contents, hnone] at hlookup
    rw [keyFile_eq huser, show d.files.lookup _ = none from hlookup] at hkey
    cases hkey
  · have hfits := (parse_fits hparse).of_gates_eq (gates_retagTree rawTree revocation)
    have hopen : Envelope.open C A D w.pp usk filed.package = _ :=
      open_eq w.pp hA (IndicesDistinct.of_charP hp.le) hbeta h.deployed hminted hfits.positive
        (hfits.childrenLt hpolicy) hseals
    rw [isSatisfiedBy_retagTree_of_mem fun a => (hattrs _).trans tag_mem_grantedTags] at hopen
    have hloaded : keyOutcome C D data user d = .ok (w.pp, usk) := by
      rw [keyOutcome, h.setupOn_eq hC hX hD, h.userKeyOn_eq hC hX hD huser hsome]
      rfl
    refine ⟨rawTree, hparse, ?_⟩
    rw [exec_cmdDecrypt, hloaded, Cmd.andThen_ok, hdir.storedOn_eq hC hX hD hfiled (hread filed hfiled),
      Cmd.andThen_ok,
      hopen]

/-- **Who can open what**: after a setup in an empty data directory and any run of commands that keep
to their own files, a user with a key file decrypts the package that was stored last under an id
exactly if the attributes that the user was entitled to satisfy its policy. Decryption writes the
document, or it fails with an event and without touching the output. -/
theorem cmdDecrypt_after_run (hC : C.ReadsBack) (hX : D.HexReadsBack) (hD : D.ReadsBack)
    (hA : A.Correct) {p : ℕ} [CharP F p] (hp : 2 ^ 64 < p) {d₀ : Disk} (hd₀ : Vacant data d₀)
    (setupFresh : Fresh F)
    (hbeta : (setup C setupFresh.scalars).1.2.beta ≠ 0) {calls : List (Call F)}
    (hcalls : ∀ call ∈ calls, call.Regular cwd data) {id policy : String} {plaintext : Bytes}
    {revocation : RevocationList}
    (hlast : lastStored (history C A D cwd data (⟨.setup, setupFresh⟩ :: calls) d₀) id =
      some (.stored id policy plaintext revocation)) {user : String} (huser : '/' ∉ user.toList)
    (hkey : ((runAll C A D cwd data (⟨.setup, setupFresh⟩ :: calls) d₀).files.lookup
      (keyFile data user)).isSome) {out : String} (hout : ¬ Own data (cwd.join out))
    (fresh : Fresh F) :
    let past := history C A D cwd data (⟨.setup, setupFresh⟩ :: calls) d₀
    let d := runAll C A D cwd data (⟨.setup, setupFresh⟩ :: calls) d₀
    let result := Fs.exec (cmdDecrypt C A D cwd data id user out fresh) d
    ∃ rawTree, parse policy = .ok rawTree ∧
      if rawTree.isSatisfiedBy (entitled past user revocation) then
        result.1 = .ok () ∧ result.2.files.lookup (cwd.join out) = some plaintext
      else
        ∃ msg, result.1 = Outcome.err msg ∧
          result.2.files.lookup (cwd.join out) = d.files.lookup (cwd.join out) ∧
          result.2.contents (auditPath data) = d.contents (auditPath data) ++
            AuditLog.line D (fresh.event user "DECRYPT_DENIED" id msg) := by
  intro past d result
  obtain ⟨w, h, ht, hmsk⟩ := exists_represents_setup hC hX hD.shallow hd₀ setupFresh hcalls
  obtain ⟨rawTree, hparse, hexec⟩ := exec_cmdDecrypt_of_represents cwd hC hX hD.shallow hA hp
    (hmsk ▸ hbeta) h ht hlast (fun _ _ => hD.pretty _) user huser hkey out fresh
  have haudit : cwd.join out ≠ auditPath data := by
    rw [auditPath_eq]
    exact fun heq => hout (heq ▸ File.audit.own data)
  refine ⟨rawTree, hparse, ?_⟩
  change result = _ at hexec
  rw [hexec]
  by_cases hsat : rawTree.isSatisfiedBy (entitled past user revocation) = true
  · rw [if_pos hsat, if_pos hsat, decided]
    refine ⟨rfl, ?_⟩
    rw [Disk.lookup_append_ne haudit, Disk.lookup_write_self]
  · rw [if_neg hsat, if_neg hsat]
    refine ⟨_, rfl, Disk.lookup_append_ne haudit _ _, ?_⟩
    exact Disk.contents_append_self _ _ _

/-! ## A run that writes over the parameters -/

/-- The registry is encrypted for the holders of `a`. -/
def exampleEncrypt : Call Scalar := ⟨.encrypt "/data/authorities.json" "a", exampleFresh⟩

/-- The id of the package. -/
def exampleId : String := newId serdeJsonUnlimited exampleStamp

/-- The package as the history has it. -/
def exampleStored (plaintext : Bytes) : Happening :=
  .stored exampleId "a" plaintext ⟨revocationPath exampleData, default⟩

/-- The deployment after the package is stored. -/
theorem exists_represents_exampleEncrypt : ∃ (w : World Scalar Scalar Scalar Scalar)
    (registry : AuthorityRegistry),
    Represents exponents serdeJsonUnlimited exampleData (runAll exponents boxes serdeJsonUnlimited
      exampleCwd exampleData (exampleRun ++ [exampleEncrypt]) emptyDisk) w ∧
    history exponents boxes serdeJsonUnlimited exampleCwd exampleData (exampleRun ++ [exampleEncrypt])
      emptyDisk = [exampleIssued, exampleStored (registryBytes serdeJsonUnlimited registry)] ∧
    w.Tells exponents boxes serdeJsonUnlimited
      [exampleIssued, exampleStored (registryBytes serdeJsonUnlimited registry)] ∧ w.msk.beta ≠ 0 := by
  have hX := hexReadsBack_serdeJsonUnlimited
  obtain ⟨w, h, hpast, ht, -, hbeta, -, hrev⟩ := exists_represents_exampleRun
  have hread := h.read_eq (f := .authorities) rfl
  have hlist : w.revocationList exampleData = ⟨revocationPath exampleData, default⟩ := by
    rw [World.revocationList, hrev]
    rfl
  have hdone := h.done_encrypt exampleCwd readsBack_exponents hX
    readsBack_serdeJsonUnlimited.shallow correct_boxes "/data/authorities.json"
    (rfl : parse "a" = .ok (.leaf "a")) (by decide) hread exampleFresh
  rw [hlist] at hdone
  obtain ⟨w', h', ht', hmsk⟩ := exists_represents_encrypt exampleCwd readsBack_exponents hX
    readsBack_serdeJsonUnlimited.shallow h ht "/data/authorities.json" (by decide : ("a" : String).length < _)
    exampleFresh
  rw [hdone] at ht'
  refine ⟨w', w.registry, ?_, ?_, ht', hmsk ▸ hbeta⟩
  · rw [runAll_append, exampleEncrypt, runAll_cons, runAll_nil]
    exact h'
  · rw [history_append, hpast, exampleEncrypt, history, hdone]
    rfl

/-- What Alice is entitled to. -/
theorem entitled_example (plaintext : Bytes) :
    entitled [exampleIssued, exampleStored plaintext] "alice"
      ⟨revocationPath exampleData, default⟩ = ["a"] := by
  simp [entitled, exampleIssued, exampleStored]

theorem lastStored_example (plaintext : Bytes) :
    lastStored [exampleIssued, exampleStored plaintext] exampleId = some (exampleStored plaintext) := by
  simp [lastStored, exampleIssued, exampleStored, Happening.packageId]

/-- Alice has a key file. -/
theorem isSome_keyFile_example {d : Disk} {w : World Scalar Scalar Scalar Scalar} {plaintext : Bytes}
    (h : Represents exponents serdeJsonUnlimited exampleData d w)
    (ht : w.Tells exponents boxes serdeJsonUnlimited [exampleIssued, exampleStored plaintext]) :
    (d.files.lookup (keyFile exampleData "alice")).isSome := by
  rcases ht.keys "alice" with ⟨-, htags⟩ | ⟨usk, attrs, r, hkey, -⟩
  · simp [grantedTags, exampleIssued] at htags
  · have hlookup := congrFun h.view (.key "alice")
    rw [World.contents, hkey] at hlookup
    rw [keyFile_eq (by decide)]
    exact Option.isSome_iff_exists.2 ⟨_, hlookup⟩

/-- Alice opens the package. -/
theorem cmdDecrypt_after_run_alice : (Fs.exec (cmdDecrypt exponents boxes serdeJsonUnlimited exampleCwd
    exampleData exampleId "alice" "copy" exampleFresh) (runAll exponents boxes serdeJsonUnlimited
      exampleCwd exampleData (exampleRun ++ [exampleEncrypt]) emptyDisk)).1 = .ok () := by
  obtain ⟨w, registry, h, hpast, ht, -⟩ := exists_represents_exampleEncrypt
  have hlast := lastStored_example (registryBytes serdeJsonUnlimited registry)
  rw [← hpast] at hlast
  have hregular : ∀ call ∈ exampleRun.tail ++ [exampleEncrypt],
      call.Regular exampleCwd exampleData :=
    List.forall_mem_cons.2 ⟨trivial, List.forall_mem_cons.2
      ⟨(by decide : '/' ∉ ("alice" : String).toList),
        List.forall_mem_singleton.2 (by decide : ("a" : String).length < 2 ^ 64)⟩⟩
  have hout : ¬ Own exampleData (exampleCwd.join "copy") := by
    rintro ⟨name, -, rest, heq⟩
    rw [show exampleCwd.join "copy" = ⟨["home", "copy"]⟩ from rfl] at heq
    simp [Path.under, exampleData] at heq
  obtain ⟨rawTree, hparse, hdecrypt⟩ := cmdDecrypt_after_run readsBack_exponents
    hexReadsBack_serdeJsonUnlimited readsBack_serdeJsonUnlimited correct_boxes
    (by norm_num : 2 ^ 64 < scalarModulus) (vacant_emptyDisk exampleData) exampleFresh
    (one_ne_zero : (1 : Scalar) ≠ 0) hregular hlast (by decide) (isSome_keyFile_example h ht) hout
    exampleFresh
  obtain rfl : AccessTree.leaf "a" = rawTree := Except.ok.inj hparse
  rw [show (⟨.setup, exampleFresh⟩ :: (exampleRun.tail ++ [exampleEncrypt]) : List (Call Scalar)) =
    exampleRun ++ [exampleEncrypt] from rfl, hpast, entitled_example, if_pos (by decide)] at hdecrypt
  exact hdecrypt.1

/-- Alice writes the document over the parameters. -/
def exampleOverwrite : Call Scalar := ⟨.decrypt exampleId "alice" "/data/setup.json", exampleFresh⟩

/-- A registry does not pass for a setup. -/
theorem setupOn_registryBytes {d : Disk} {registry : AuthorityRegistry}
    (h : d.files.lookup (setupPath exampleData) = some (registryBytes serdeJsonUnlimited registry)) :
    ∃ msg, (setupOn exponents serdeJsonUnlimited exampleData d :
      Outcome String (PublicParams Scalar Scalar Scalar × MasterSecret Scalar)) = Outcome.err msg := by
  obtain ⟨msg, hmsg⟩ : ∃ msg, SetupBundleDto.fromJson registry.toJson = .error msg := ⟨_, rfl⟩
  refine ⟨(AbeError.encoding msg).toText, ?_⟩
  rw [setupOn, Disk.read_of_lookup h, registryBytes, Fs.textOf_utf8, Outcome.mapErr_ok, ok_bind,
    setupBundleFromJson, readsBack_serdeJsonUnlimited.pretty, ok_bind, hmsg]
  rfl

/-- **Nobody opens anything** once `decrypt` has written over the parameters: Alice is entitled to the
document and has a key file, and decryption fails without a trace. -/
theorem cmdDecrypt_after_overwrite : ∃ plaintext : Bytes,
    let past := history exponents boxes serdeJsonUnlimited exampleCwd exampleData
      (exampleRun ++ [exampleEncrypt, exampleOverwrite]) emptyDisk
    let d := runAll exponents boxes serdeJsonUnlimited exampleCwd exampleData
      (exampleRun ++ [exampleEncrypt, exampleOverwrite]) emptyDisk
    lastStored past exampleId = some (exampleStored plaintext) ∧
      parse "a" = .ok (.leaf "a") ∧ (AccessTree.leaf "a").isSatisfiedBy
        (entitled past "alice" ⟨revocationPath exampleData, default⟩) = true ∧
      (d.files.lookup (keyFile exampleData "alice")).isSome ∧
      ∃ msg, Fs.exec (cmdDecrypt exponents boxes serdeJsonUnlimited exampleCwd exampleData exampleId
        "alice" "copy" exampleFresh) d = (Outcome.err msg, d) := by
  obtain ⟨w, registry, h, hpast, ht, hbeta⟩ := exists_represents_exampleEncrypt
  have hlast := lastStored_example (registryBytes serdeJsonUnlimited registry)
  have hkey := isSome_keyFile_example h ht
  have hrun : exampleRun ++ [exampleEncrypt, exampleOverwrite] =
      (exampleRun ++ [exampleEncrypt]) ++ [exampleOverwrite] := rfl
  rw [hrun, runAll_append, history_append, hpast]
  generalize runAll exponents boxes serdeJsonUnlimited exampleCwd exampleData
    (exampleRun ++ [exampleEncrypt]) emptyDisk = d at h hkey
  obtain ⟨rawTree, hparse, hexec⟩ := exec_cmdDecrypt_of_represents exampleCwd
    readsBack_exponents hexReadsBack_serdeJsonUnlimited readsBack_serdeJsonUnlimited.shallow correct_boxes
    (by norm_num : 2 ^ 64 < scalarModulus) hbeta h ht hlast
    (fun _ _ => readsBack_serdeJsonUnlimited.pretty _) "alice" (by decide) hkey
    "/data/setup.json" exampleFresh
  obtain rfl : AccessTree.leaf "a" = rawTree := Except.ok.inj hparse
  rw [entitled_example, if_pos (by decide), decided,
    show exampleCwd.join "/data/setup.json" = setupPath exampleData by decide] at hexec
  change exampleOverwrite.exec exponents boxes serdeJsonUnlimited exampleCwd exampleData d = _ at hexec
  have hquiet : exampleOverwrite.done exponents boxes serdeJsonUnlimited exampleCwd exampleData d =
      none := done_eq_none (by simp [exampleOverwrite]) (by simp [exampleOverwrite])
  rw [runAll_cons, runAll_nil, history, hquiet, hexec, Option.toList_none, history, List.append_nil,
    List.append_nil]
  refine ⟨registryBytes serdeJsonUnlimited registry, hlast, rfl, ?_, ?_, ?_⟩
  · rw [entitled_example]
    decide
  · rwa [Disk.lookup_append_ne (by decide), Disk.lookup_write_ne (by decide), Disk.files_createDirAll]
  · have hsetup : (((d.createDirAll (packagesDir exampleData)).write (setupPath exampleData)
        (registryBytes serdeJsonUnlimited registry)).append (auditPath exampleData)
          (AuditLog.line serdeJsonUnlimited (exampleFresh.event "alice" "DECRYPT_SUCCESS" exampleId
            ("wrote " ++ "/data/setup.json")))).files.lookup (setupPath exampleData) =
        some (registryBytes serdeJsonUnlimited registry) := by
      rw [Disk.lookup_append_ne (by decide), Disk.lookup_write_self]
    obtain ⟨msg, hmsg⟩ := setupOn_registryBytes hsetup
    refine ⟨msg, ?_⟩
    rw [exec_cmdDecrypt, keyOutcome, hmsg]
    rfl

end SecureABE.Cli
