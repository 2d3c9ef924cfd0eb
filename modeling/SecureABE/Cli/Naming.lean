import SecureABE.Cli.Faults
import SecureABE.Cli.Frames
import SecureABE.Cli.Levels
import SecureABE.Foundations.Routes

/-!
# Names as paths

The name of a user and the id of a package are put into a path as they are, with the slashes and dots that
are in them. So `./alice` is another user than `alice` for the revocation list and has the same key file,
and an id such as `../keys` leads out of the store.

Names stay apart exactly if their files lead into the directory of the keys and their last parts differ
(`keyFilesApart_iff`); an id stays in the store exactly if it leads into its root (`getStays_iff`). Names
without slashes do both. In a run whose users have such names, a key file is rewritten for its own user
only (`keyFileKept_of_differ`).
-/

namespace SecureABE.Cli

open Rust SecureABE.Core SecureABE.Policy SecureABE.Revocation SecureABE.Authorities SecureABE.Audit
  SecureABE.Envelope SecureABE.Storage

variable {F G₁ G₂ Gₜ : Type} [Field F] [DecidableEq F] [AddCommGroup G₁] [Module F G₁]
  [AddCommGroup G₂] [Module F G₂] [AddCommGroup Gₜ] [Module F Gₜ]
variable (C : Curve F G₁ G₂ Gₜ) (A : Cipher) (D : Codec) (cwd data : Path)

/-! ## The claims -/

/-- The users have different key files, directly in the directory of the keys. -/
structure KeyFilesApart (user user' : String) : Prop where
  ne : keyFile data user ≠ keyFile data user'
  inside : ∃ c, keyFile data user = (keysDir data).under [c]
  inside' : ∃ c, keyFile data user' = (keysDir data).under [c]

/-- `get` reads files of a directory that is directly in the root of the store, and no others, whatever is
on the disk. -/
def GetStays (store : PackageStore) (id : String) : Prop :=
  Cmd.Only (fun op => ∀ p, op = .read p → ∃ c file, p = store.root.under [c, file]) (store.get C D id)
    fun _ => True

/-- No issue under another name that succeeds in the run rewrites the key file of a user. -/
def KeyFileKept (user : String) (calls : List (Call F)) (d : Disk) : Prop :=
  ∀ before args fresh after, calls = before ++ ⟨.issue args, fresh⟩ :: after → args.user ≠ user →
    ((Call.mk (.issue args) fresh).exec C A D cwd data (runAll C A D cwd data before d)).1 = .ok () →
      ((Call.mk (.issue args) fresh).exec C A D cwd data (runAll C A D cwd data before d)).2.files.lookup
          (keyFile data user) =
        (runAll C A D cwd data before d).files.lookup (keyFile data user)

/-! ## The condition -/

/-- The files of two users lead into the directory of the keys, and the texts after the last slashes of
their names are different. -/
structure NamesDiffer (user user' : String) : Prop where
  leads : (keysDir data).LeadsInto (user ++ ".json")
  leads' : (keysDir data).LeadsInto (user' ++ ".json")
  ne : Path.lastPart user ≠ Path.lastPart user'

variable {C A D cwd data}

/-- Different names without slashes differ as paths. -/
theorem namesDiffer_of_no_slash {user user' : String} (h : '/' ∉ user.toList) (h' : '/' ∉ user'.toList)
    (hne : user ≠ user') : NamesDiffer data user user' where
  leads := (isName_json h).leadsInto _
  leads' := (isName_json h').leadsInto _
  ne := by rwa [Path.lastPart_of_no_slash h, Path.lastPart_of_no_slash h']

/-- A key file directly in the directory of the keys. -/
theorem keyFile_of_leadsInto {user : String} (h : (keysDir data).LeadsInto (user ++ ".json")) :
    keyFile data user = (keysDir data).under [Path.lastPart user ++ ".json"] := by
  obtain ⟨c, hc⟩ := Path.leadsInto_iff.1 h
  have hlast : (keyFile data user).components.getLast? = some (Path.lastPart user ++ ".json") :=
    getLast_keyFile user
  rw [keyFile, hc, Path.under, List.getLast?_concat, Option.some.injEq] at hlast
  rw [keyFile, hc, hlast]

theorem keyFile_eq_of_leadsInto {user : String} (h : (keysDir data).LeadsInto (user ++ ".json")) :
    keyFile data user = (File.key (Path.lastPart user)).path data := by
  rw [keyFile_of_leadsInto h, keysDir_eq, Path.under, Path.under, List.append_assoc]
  rfl

/-! ## Users -/

/-- **The files of two users** are apart exactly if their names differ as paths. -/
theorem keyFilesApart_iff {user user' : String} :
    KeyFilesApart data user user' ↔ NamesDiffer data user user' := by
  constructor
  · rintro ⟨hne, hinside, hinside'⟩
    have hleads := Path.leadsInto_iff.2 hinside
    have hleads' := Path.leadsInto_iff.2 hinside'
    refine ⟨hleads, hleads', fun hlast => hne ?_⟩
    rw [keyFile_of_leadsInto hleads, keyFile_of_leadsInto hleads', hlast]
  · rintro ⟨hleads, hleads', hne⟩
    refine ⟨fun heq => hne ?_, Path.leadsInto_iff.1 hleads, Path.leadsInto_iff.1 hleads'⟩
    have hlast := congrArg (fun p : Path => p.components.getLast?) heq
    simp only [getLast_keyFile, Option.some.injEq] at hlast
    exact String.append_left_inj _ |>.1 hlast

/-- A key file in the directory of the keys is not the file of the parameters. -/
theorem keyFile_ne_setupPath_of_leadsInto {user : String}
    (h : (keysDir data).LeadsInto (user ++ ".json")) : keyFile data user ≠ setupPath data := by
  rw [keyFile_eq_of_leadsInto h, setupPath_eq]
  exact fun heq => by cases File.path_injective heq

/-- **Issuing for another user** leaves a key file alone. -/
theorem lookup_exec_issue {user : String} {args : IssueArgs} (h : NamesDiffer data user args.user)
    (fresh : Fresh F) (d : Disk) :
    ((Call.mk (.issue args) fresh).exec C A D cwd data d).2.files.lookup (keyFile data user) =
      d.files.lookup (keyFile data user) := by
  refine lookup_exec ?_ d
  simp only [Call.targets, List.mem_cons, List.not_mem_nil, or_false, not_or]
  exact ⟨keyFile_ne_setupPath_of_leadsInto h.leads, (keyFilesApart_iff.2 h).ne,
    keyFile_ne_auditPath user⟩

/-- In a run that issues to users with different names as paths, **key files are kept**. -/
theorem keyFileKept_of_differ {user : String} {calls : List (Call F)}
    (h : ∀ call ∈ calls, ∀ args, call.command = .issue args → args.user ≠ user →
      NamesDiffer data user args.user) (d : Disk) : KeyFileKept C A D cwd data user calls d := by
  rintro before args fresh after rfl hne -
  exact lookup_exec_issue (h _ (List.mem_append_right _ List.mem_cons_self) args rfl hne) fresh _

/-! ## Packages -/

omit [DecidableEq F] in
/-- **An id stays in the store** exactly if it leads into its root. -/
theorem getStays_iff {store : PackageStore} {id : String} :
    GetStays C D store id ↔ store.root.LeadsInto id := by
  rw [Path.leadsInto_iff]
  constructor
  · intro h
    -- the directory is there, and the sealed document is read
    obtain ⟨c, file, hread⟩ := (h.2 true).1 (store.sealedPath id) rfl
    refine ⟨c, Rust.Path.ext ?_⟩
    rw [PackageStore.sealedPath, Path.join_name isName_sealed] at hread
    have hcomponents := congrArg (fun p : Path => p.components.dropLast) hread
    rw [← PackageStore.packageDir]
    simpa [Rust.Path.under, List.dropLast_append] using hcomponents
  · rintro ⟨c, hc⟩
    have hfile : ∀ {name p}, Path.IsName name → FileOp.read ((store.packageDir id).join name) = .read p →
        ∃ c file, p = store.root.under [c, file] := by
      intro name p hname hp
      refine ⟨c, name, ?_⟩
      rw [← FileOp.read.inj hp, PackageStore.packageDir, hc, Path.join_eq_under hname]
      rfl
    refine (Fs.only_exist fun p hp => (by cases hp)).bind fun _ _ => (Cmd.only_outcome _).ite ?_
    refine (Fs.only_readToString fun p hp => hfile isName_sealed hp).mapErr.bind fun _ _ =>
      (Cmd.only_outcome _).bind fun _ _ => ?_
    refine (Fs.only_readToString fun p hp => hfile isName_key hp).mapErr.bind fun _ _ =>
      (Cmd.only_outcome _).bind fun _ _ => ?_
    exact Cmd.only_pure trivial

variable (C A D cwd data) in
/-- **Names stay in their directories** exactly under these conditions: two users have different files,
directly in the directory of the keys; an id leads to the files of a directory in the root of the store; and
no successful issue rewrites the key file of another user. -/
theorem names_iff (store : PackageStore) :
    (∀ user user', KeyFilesApart data user user' ↔ NamesDiffer data user user') ∧
    (∀ id, GetStays C D store id ↔ store.root.LeadsInto id) ∧
    ∀ (user : String) (calls : List (Call F)) (d : Disk),
      (∀ call ∈ calls, ∀ args, call.command = .issue args → args.user ≠ user →
        NamesDiffer data user args.user) → KeyFileKept C A D cwd data user calls d :=
  ⟨fun _ _ => keyFilesApart_iff, fun _ => getStays_iff, fun _ _ d h => keyFileKept_of_differ h d⟩

/-! ## An example -/

/-- Alice has a key, and is revoked. -/
def exampleBlocked : List (Call Scalar) := exampleRun ++ [⟨.revokeUser "alice", exampleFresh⟩]

/-- A key for another user. -/
def issueToBob : IssueArgs := ⟨"root", "bob", ["b"], [], []⟩

/-- Names without slashes: the files of Alice and Bob are apart, an id stays in the store, and after Alice is
revoked Bob is issued a key, which leaves hers alone. -/
theorem names_iff_bob :
    KeyFilesApart exampleData "alice" "bob" ∧
    GetStays exponents serdeJsonUnlimited (packageStore exampleData) "p1" ∧
    let d := runAll exponents boxes serdeJsonUnlimited exampleCwd exampleData exampleBlocked emptyDisk
    let issued := (Call.mk (.issue issueToBob) exampleFresh).exec exponents boxes serdeJsonUnlimited
      exampleCwd exampleData d
    issued.1 = .ok () ∧
      issued.2.files.lookup (keyFile exampleData "alice") = d.files.lookup (keyFile exampleData "alice") := by
  have hnames := names_iff exponents boxes serdeJsonUnlimited exampleCwd exampleData
    (packageStore exampleData)
  have halice : '/' ∉ "alice".toList := by decide
  have hdiffer : NamesDiffer exampleData "alice" "bob" :=
    namesDiffer_of_no_slash halice (by decide) (by decide)
  refine ⟨(hnames.1 _ _).2 hdiffer, (hnames.2.1 "p1").2 (by decide), ?_⟩
  -- the key for Bob is issued
  obtain ⟨w, h, -, ht, -, hbeta, hregistry, hrevocation⟩ := exists_represents_exampleRun
  have hrevoked := h.revokeUser boxes exampleCwd readsBack_serdeJsonUnlimited.shallow "alice" exampleFresh
  have hrun : runAll exponents boxes serdeJsonUnlimited exampleCwd exampleData exampleBlocked emptyDisk =
      ((Call.mk (.revokeUser "alice") exampleFresh).exec exponents boxes serdeJsonUnlimited exampleCwd
        exampleData (runAll exponents boxes serdeJsonUnlimited exampleCwd exampleData exampleRun
          emptyDisk)).2 := by
    rw [exampleBlocked, runAll_append, runAll_cons, runAll_nil]
  rw [← hrun] at hrevoked
  have hclaims : parseClaims issueToBob.flags issueToBob.texts issueToBob.numerics = .ok [.flag "b"] := rfl
  have hpermitted : ∀ claim ∈ [Claim.flag "b"], w.registry.checkPermission "root" claim = .ok () := by
    rw [hregistry]
    exact List.forall_mem_singleton.2 rfl
  have hissued := (hrevoked.exec_issue exampleCwd readsBack_exponents hexReadsBack_serdeJsonUnlimited
    readsBack_serdeJsonUnlimited.shallow (ht.of_eq rfl rfl rfl rfl) hbeta issueToBob (by decide)
    (by rw [World.revocationList, World.revocationList, hrevocation]; rfl) hclaims hpermitted exampleFresh).1
  refine ⟨hissued, hnames.2.2 "alice" (exampleBlocked ++ [⟨.issue issueToBob, exampleFresh⟩]) emptyDisk
    (fun call hcall args hcommand hne => ?_) exampleBlocked issueToBob exampleFresh [] rfl (by decide)
    hissued⟩
  simp only [exampleBlocked, exampleRun, List.cons_append, List.nil_append, List.mem_cons,
    List.not_mem_nil, or_false] at hcall
  rcases hcall with rfl | rfl | rfl | rfl | rfl
  all_goals cases hcommand
  · exact absurd rfl hne
  · exact hdiffer

/-- A key for a user whose name leads to the key file of Alice. -/
def issueToAlias : IssueArgs := ⟨"root", "./alice", ["a", "b"], [], []⟩

/-- After Alice is revoked, a key with another attribute takes the place of hers. -/
theorem exists_key_issueToAlias : ∃ (usk : UserSecretKey Scalar) (key : Issued Scalar Scalar Scalar Scalar),
    userKeyOn exponents serdeJsonUnlimited exampleData "alice"
      (runAll exponents boxes serdeJsonUnlimited exampleCwd exampleData exampleBlocked emptyDisk) = .ok usk ∧
    issueOutcome exponents serdeJsonUnlimited exampleData issueToAlias exampleFresh
      (runAll exponents boxes serdeJsonUnlimited exampleCwd exampleData exampleBlocked emptyDisk) = .ok key ∧
    "b@epoch0" ∉ usk.attributes ∧ "b@epoch0" ∈ key.usk.attributes := by
  obtain ⟨w, usk, h, hkey, hattrs, hbeta, hregistry, hrevocation⟩ := exists_key_exampleRun
  rw [exampleBlocked, runAll_append, runAll_cons, runAll_nil]
  generalize runAll exponents boxes serdeJsonUnlimited exampleCwd exampleData exampleRun emptyDisk = d
    at h hkey ⊢
  have hC := readsBack_exponents
  have hX := hexReadsBack_serdeJsonUnlimited
  have hD := readsBack_serdeJsonUnlimited.shallow
  have hrevoked := h.revokeUser boxes exampleCwd hD "alice" exampleFresh
  have hlookup : ((Call.mk (.revokeUser "alice") exampleFresh).exec exponents boxes serdeJsonUnlimited
      exampleCwd exampleData d).2.files.lookup (keyFile exampleData "alice") =
        d.files.lookup (keyFile exampleData "alice") := lookup_exec (by decide) d
  generalize ((Call.mk (.revokeUser "alice") exampleFresh).exec exponents boxes serdeJsonUnlimited
    exampleCwd exampleData d).2 = d' at hrevoked hlookup ⊢
  have hholds : HoldsKey exponents serdeJsonUnlimited (keyFile exampleData "alice") d' usk :=
    (userKeyOn_eq_ok.1 hkey).congr hlookup.symm
  have halias : userKeyOn exponents serdeJsonUnlimited exampleData "./alice" d' = .ok usk := by
    rw [userKeyOn_eq_ok, show keyFile exampleData "./alice" = keyFile exampleData "alice" by decide]
    exact hholds
  have hadmits : Admits exponents serdeJsonUnlimited exampleData issueToAlias d'
      ⟨w.pp, w.msk, w.registry,
        ⟨revocationPath exampleData, ((w.revocationList exampleData).withUser "alice").state⟩,
        [.flag "a", .flag "b"], .ok usk⟩ := by
    refine ⟨hrevoked.setupOn_eq hC hX hD, hrevoked.registryOn_eq hD, hrevoked.revocationOn_eq hD, ?_, rfl,
      ?_, congrArg Cmd.caught halias⟩
    · rw [World.revocationList, hrevocation]
      rfl
    · rw [hregistry]
      exact List.forall_mem_cons.2 ⟨rfl, List.forall_mem_singleton.2 rfl⟩
  have htags : (resolved [.flag "a", .flag "b"]).map (RevocationList.tag
      ⟨revocationPath exampleData, ((w.revocationList exampleData).withUser "alice").state⟩) =
        ["a@epoch0", "b@epoch0"] := by
    rw [World.revocationList, hrevocation]
    decide
  obtain ⟨key, hissued⟩ := exists_issueOutcome exampleFresh hadmits hbeta fun usk' husk t ht => by
    obtain rfl := Except.ok.inj husk
    left
    rw [htags, (hattrs t).1 ht]
    exact List.mem_cons_self
  refine ⟨usk, key, userKeyOn_eq_ok.2 hholds, hissued, fun hb => ?_, ?_⟩
  · have hne := (hattrs _).1 hb
    revert hne
    decide
  · rw [issueOutcome_eq hadmits] at hissued
    obtain ⟨-, -, -, hflat, -, r, hminted⟩ := mintKey_eq_ok hissued
    rw [hminted.mem, hflat, mem_mergeExisting]
    left
    rw [IssueInput.granted, (exists_registerAll_foldl_add _ _ _).1, htags]
    exact List.mem_cons_of_mem _ List.mem_cons_self

/-- **Names do not stay apart**: `./alice` has the key file of Alice, and takes it over after she is
revoked; and the id `../keys` leads out of the store. -/
theorem not_names_exampleBlocked :
    ¬ KeyFilesApart exampleData "alice" "./alice" ∧
    ¬ GetStays exponents serdeJsonUnlimited (packageStore exampleData) "../keys" ∧
    ((Call.mk (.revokeUser "alice") exampleFresh).exec exponents boxes serdeJsonUnlimited exampleCwd
      exampleData (runAll exponents boxes serdeJsonUnlimited exampleCwd exampleData exampleRun
        emptyDisk)).1 = .ok () ∧
    ¬ KeyFileKept exponents boxes serdeJsonUnlimited exampleCwd exampleData "alice"
      [⟨.issue issueToAlias, exampleFresh⟩]
      (runAll exponents boxes serdeJsonUnlimited exampleCwd exampleData exampleBlocked emptyDisk) := by
  have hC := readsBack_exponents
  have hX := hexReadsBack_serdeJsonUnlimited
  have hD := readsBack_serdeJsonUnlimited.shallow
  refine ⟨fun h => h.ne (by decide), fun h => ?_, ?_, fun h => ?_⟩
  · exact absurd (getStays_iff.1 h) (by decide)
  · obtain ⟨w, usk, h, -⟩ := exists_key_exampleRun
    have hexec := exec_cmdRevokeUser serdeJsonUnlimited exampleData "alice" exampleFresh
      (runAll exponents boxes serdeJsonUnlimited exampleCwd exampleData exampleRun emptyDisk)
    rw [h.revocationOn_eq hD, Cmd.andThen_ok] at hexec
    exact congrArg Prod.fst hexec
  · obtain ⟨usk, key, hkey, hissued, hold, hnew⟩ := exists_key_issueToAlias
    generalize runAll exponents boxes serdeJsonUnlimited exampleCwd exampleData exampleBlocked emptyDisk =
      d at h hkey hissued
    have hexec : (Call.mk (.issue issueToAlias) exampleFresh).exec exponents boxes serdeJsonUnlimited
        exampleCwd exampleData d =
          (.ok (), afterIssue exponents serdeJsonUnlimited exampleData issueToAlias exampleFresh key d) := by
      rw [exec_issue, exec_cmdIssue, hissued, Cmd.andThen_ok]
    have hkept := h [] issueToAlias exampleFresh [] rfl (by decide)
    rw [runAll_nil, hexec] at hkept
    have hwritten : (afterIssue exponents serdeJsonUnlimited exampleData issueToAlias exampleFresh key
        d).files.lookup (keyFile exampleData "alice") = some (userKeyBytes exponents serdeJsonUnlimited
          key.usk) := by
      rw [afterIssue, Disk.lookup_append_ne (keyFile_ne_auditPath "alice"),
        show keyFile exampleData "alice" = keyFile exampleData issueToAlias.user by decide]
      exact Disk.lookup_write_self _ _ _
    have hload := userKeyOn_of_lookup hC hX hD ((hkept rfl).symm.trans hwritten)
    rw [hkey] at hload
    exact hold (Except.ok.inj hload ▸ hnew)

end SecureABE.Cli
