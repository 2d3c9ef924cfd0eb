import SecureABE.Cli.Runs

/-!
# Issuing to a user with a key on file

The names of the key on file are issued again, whatever its components are and whatever their epochs:
every component is minted anew, for all names alike (`names_of_cmdIssue`). A name that was written into
the file, without a component that fits, is thereby turned into a valid one
(`cmdIssue_forgedKey`), and a name of an earlier epoch is issued at that epoch: a key has current tags
only exactly if the key on file had (`current_iff_onFile`).
-/

namespace SecureABE.Cli

open Rust SecureABE.Core SecureABE.Policy SecureABE.Revocation SecureABE.Authorities SecureABE.Storage

variable {F G₁ G₂ Gₜ : Type} [Field F] [DecidableEq F] [AddCommGroup G₁] [Module F G₁]
  [AddCommGroup G₂] [Module F G₂] [AddCommGroup Gₜ] [Module F Gₜ]

/-! ## Names -/

section Names

variable {C : Curve F G₁ G₂ Gₜ} {D : Codec} {data : Path}

/-- The tags of the attributes of claims. -/
theorem mem_map_tag_resolved {revocation : RevocationList} {claims : List Claim} {t : String} :
    t ∈ (resolved claims).map revocation.tag ↔
      ∃ claim ∈ claims, ∃ a ∈ claim.resolve, t = revocation.tag a := by
  simp only [resolved, List.mem_map, List.mem_flatMap]
  constructor
  · rintro ⟨a, ⟨claim, hclaim, ha⟩, rfl⟩
    exact ⟨claim, hclaim, a, ha, rfl⟩
  · rintro ⟨claim, hclaim, a, ha, rfl⟩
    exact ⟨a, ⟨claim, hclaim, ha⟩, rfl⟩

omit [DecidableEq F] in
/-- The key on file, as the command sees it. -/
theorem Admits.existing_eq_ok {args : IssueArgs} {d : Disk} {input : IssueInput G₁ G₂ Gₜ F}
    (h : Admits C D data args d input) {usk : UserSecretKey G₂} :
    input.existing = .ok usk ↔ userKeyOn C D data args.user d = .ok usk := by
  have hexisting := h.existing
  cases hkey : userKeyOn C D data args.user d with
  | ok usk' =>
    rw [hkey] at hexisting
    rw [← Except.ok.inj hexisting, Except.ok.injEq, Except.ok.injEq]
  | error e =>
    cases e with
    | error msg =>
      rw [hkey] at hexisting
      rw [← Except.ok.inj hexisting]
      exact ⟨nofun, nofun⟩
    | panic msg =>
      rw [hkey] at hexisting
      cases hexisting

/-- **What a key is issued for**, whatever the file of the user holds: every attribute of the new key is
the tag of an attribute of a permitted claim, or a registered name in the file. The components are all
minted with one new exponent. -/
theorem names_of_cmdIssue {args : IssueArgs} {fresh : Fresh F} {d d' : Disk}
    (h : Fs.exec (cmdIssue C D data args fresh) d = (.ok (), d')) :
    ∃ (input : IssueInput G₁ G₂ Gₜ F) (key : Issued F G₁ G₂ Gₜ) (r : F),
      Admits C D data args d input ∧ d' = afterIssue C D data args fresh key d ∧
      key.msk = input.msk ∧ Minted key.pp key.msk input.names r key.usk ∧
      ∀ t ∈ key.usk.attributes,
        (∃ claim ∈ input.claims, input.registry.checkPermission args.authority claim = .ok () ∧
          ∃ a ∈ claim.resolve, t = input.revocation.tag a) ∨
        ∃ onFile, userKeyOn C D data args.user d = .ok onFile ∧ t ∈ onFile.attributes ∧
          t ∈ input.pp.attributes := by
  rw [exec_cmdIssue] at h
  cases hkey : issueOutcome C D data args fresh d with
  | error e =>
    rw [hkey, Cmd.andThen_error] at h
    cases congrArg Prod.fst h
  | ok key =>
    rw [hkey, Cmd.andThen_ok] at h
    obtain ⟨input, hadmits, -, hmsk, -, hmem, ⟨calls, hcalls, hpp⟩, r, hminted⟩ :=
      issueOutcome_eq_ok hkey
    refine ⟨input, key, r, hadmits, (congrArg Prod.snd h).symm, hmsk, hminted, fun t ht => ?_⟩
    have hname := (hminted.mem t).1 ht
    have hregistered := hmem t hname
    rw [hpp, mem_registerAll, hcalls] at hregistered
    have hclaimed : t ∈ (resolved input.claims).map input.revocation.tag →
        ∃ claim ∈ input.claims, input.registry.checkPermission args.authority claim = .ok () ∧
          ∃ a ∈ claim.resolve, t = input.revocation.tag a := by
      intro htag
      obtain ⟨claim, hclaim, a, ha, heq⟩ := mem_map_tag_resolved.1 htag
      exact ⟨claim, hclaim, hadmits.permitted claim hclaim, a, ha, heq⟩
    rcases hregistered with htag | hbefore
    · exact Or.inl (hclaimed htag)
    · rcases mem_mergeExisting.1 hname with htag | ⟨onFile, honFile, hon⟩
      · exact Or.inl (hclaimed htag)
      · exact Or.inr ⟨onFile, hadmits.existing_eq_ok.1 honFile, hon, hbefore⟩

end Names

/-- Alice is issued a second attribute. -/
theorem names_of_cmdIssue_alice : ∃ (input : IssueInput Scalar Scalar Scalar Scalar)
    (key : Issued Scalar Scalar Scalar Scalar),
    Admits exponents serdeJsonUnlimited exampleData (issueToAlice "b")
      (runAll exponents boxes serdeJsonUnlimited exampleCwd exampleData exampleRun emptyDisk) input ∧
    ∀ t ∈ key.usk.attributes,
      (∃ claim ∈ input.claims, input.registry.checkPermission "root" claim = .ok () ∧
        ∃ a ∈ claim.resolve, t = input.revocation.tag a) ∨
      ∃ onFile, userKeyOn exponents serdeJsonUnlimited exampleData "alice" (runAll exponents boxes
          serdeJsonUnlimited exampleCwd exampleData exampleRun emptyDisk) = .ok onFile ∧
        t ∈ onFile.attributes ∧ t ∈ input.pp.attributes := by
  obtain ⟨w, h, -, ht, -, hbeta, hregistry, hrevocation⟩ := exists_represents_exampleRun
  have hpermitted : ∀ claim ∈ [Claim.flag "b"],
      w.registry.checkPermission "root" claim = .ok () := by
    rw [hregistry]
    exact List.forall_mem_singleton.2 rfl
  have hrevoked : (w.revocationList exampleData).isUserRevoked "alice" = false := by
    rw [World.revocationList, hrevocation]
    rfl
  obtain ⟨hok, -⟩ := h.exec_issue exampleCwd readsBack_exponents hexReadsBack_serdeJsonUnlimited
    readsBack_serdeJsonUnlimited.shallow ht hbeta (issueToAlice "b") (by decide) hrevoked rfl
    hpermitted exampleFresh
  rw [exec_issue] at hok
  generalize runAll exponents boxes serdeJsonUnlimited exampleCwd exampleData exampleRun emptyDisk = d
    at hok ⊢
  obtain ⟨input, key, r, hadmits, -, -, -, hnames⟩ := names_of_cmdIssue (Prod.ext hok rfl)
  exact ⟨input, key, hadmits, hnames⟩

/-! ### A forged key file -/

/-- A key holds a component of an attribute that was made under the master secret. -/
def Genuine (pp : PublicParams G₁ G₂ Gₜ) (msk : MasterSecret F) (usk : UserSecretKey G₂)
    (t : String) : Prop :=
  ∃ r share, usk.d = ((msk.alpha + r) * msk.beta⁻¹) • pp.g2 ∧ usk.attributes.lookup t = some share ∧
    Component pp t r share

/-- A key file that Eve wrote herself: the name of an attribute and neutral elements. -/
def forgedKey : UserSecretKey Scalar where
  subject := "eve"
  d := 0
  attributes := (∅ : HashMap String (AttributeKeyShare Scalar)).insert "a@epoch0" ⟨0, 0⟩

/-- The attribute `b` for Eve. -/
def issueToEve : IssueArgs := ⟨"root", "eve", ["b"], [], []⟩

/-- The deployment of the examples, with Eve's file among the keys. -/
def forgedDisk : Disk :=
  ((runAll exponents boxes serdeJsonUnlimited exampleCwd exampleData exampleRun emptyDisk).createDirAll
    (keysDir exampleData)).write (keyFile exampleData "eve")
      (userKeyBytes exponents serdeJsonUnlimited forgedKey)

/-- What is forged is not genuine: the exponent would be zero and minus one. -/
theorem not_genuine_forgedKey {pp : PublicParams Scalar Scalar Scalar} {msk : MasterSecret Scalar}
    (hpp : Deployed exponents msk pp) (halpha : msk.alpha ≠ 0) (hbeta : msk.beta ≠ 0) :
    ¬ Genuine pp msk forgedKey "a@epoch0" := by
  rintro ⟨r, share, hd, hshare, c, rJ, -, heq⟩
  have hg : pp.g2 = 1 := hpp.g2
  have hforged : forgedKey.attributes.lookup "a@epoch0" = some ⟨0, 0⟩ := AList.lookup_insert _
  obtain ⟨hdJ, hdJPrime⟩ := AttributeKeyShare.mk.inj
    ((Option.some.inj (hforged.symm.trans hshare)).trans heq)
  rw [hg, smul_eq_mul, mul_one] at hdJPrime
  rw [hg, ← hdJPrime, zero_smul, add_zero, smul_eq_mul, mul_one] at hdJ
  rw [hg, ← hdJ, add_zero, smul_eq_mul, mul_one] at hd
  exact mul_ne_zero halpha (inv_ne_zero hbeta) hd.symm

/-- **A forged name becomes a component**: Eve's file names an attribute for which it holds nothing
genuine, the command has no claim for it, and the key that it mints has it. -/
theorem cmdIssue_forgedKey :
    userKeyOn exponents serdeJsonUnlimited exampleData "eve" forgedDisk = .ok forgedKey ∧
    (∃ input : IssueInput Scalar Scalar Scalar Scalar,
      Admits exponents serdeJsonUnlimited exampleData issueToEve forgedDisk input ∧
      ¬ Genuine input.pp input.msk forgedKey "a@epoch0" ∧
      ∀ claim ∈ input.claims, ∀ a ∈ claim.resolve, input.revocation.tag a ≠ "a@epoch0") ∧
    ∃ d usk, Fs.exec (cmdIssue exponents serdeJsonUnlimited exampleData issueToEve exampleFresh)
        forgedDisk = (.ok (), d) ∧
      userKeyOn exponents serdeJsonUnlimited exampleData "eve" d = .ok usk ∧
      "a@epoch0" ∈ usk.attributes := by
  have hC := readsBack_exponents
  have hX := hexReadsBack_serdeJsonUnlimited
  have hD := readsBack_serdeJsonUnlimited.shallow
  obtain ⟨w, h, -, ht, halpha, hbeta, hregistry, hrevocation⟩ := exists_represents_exampleRun
  have heve : '/' ∉ "eve".toList := by decide
  have hforged := h.key heve forgedKey
  have hmem : "a@epoch0" ∈ forgedKey.attributes := (AList.mem_insert _).2 (Or.inl rfl)
  have hkey := hforged.userKeyOn_eq hC hX hD heve (by rw [World.keys_withKey, if_pos rfl])
  have hregistered : "a@epoch0" ∈ w.pp.attributes := by
    rcases ht.keys "alice" with ⟨-, htags⟩ | ⟨usk, attrs, r, -, hminted, hattrs⟩
    · simp [grantedTags, exampleIssued] at htags
    · obtain ⟨share, hshare⟩ := HashMap.exists_lookup_of_mem ((hminted.mem "a@epoch0").2
        ((hattrs _).2 (by decide)))
      obtain ⟨c, rJ, hc, -⟩ := hminted.component _ share hshare
      exact HashMap.mem_of_lookup hc
  have hpermitted : ∀ claim ∈ [Claim.flag "b"],
      (w.withKey "eve" forgedKey).registry.checkPermission "root" claim = .ok () := by
    change ∀ claim ∈ [Claim.flag "b"], w.registry.checkPermission "root" claim = .ok ()
    rw [hregistry]
    exact List.forall_mem_singleton.2 rfl
  have hnotRevoked : ((w.withKey "eve" forgedKey).revocationList exampleData).isUserRevoked "eve" =
      false := by
    change (w.revocationList exampleData).isUserRevoked "eve" = false
    rw [World.revocationList, hrevocation]
    rfl
  have hadmits : Admits exponents serdeJsonUnlimited exampleData issueToEve forgedDisk
      ⟨w.pp, w.msk, w.registry, w.revocationList exampleData, [Claim.flag "b"], .ok forgedKey⟩ :=
    ⟨hforged.setupOn_eq hC hX hD, hforged.registryOn_eq hD, hforged.revocationOn_eq hD, hnotRevoked,
      rfl, hpermitted, congrArg Cmd.caught hkey⟩
  refine ⟨hkey, ⟨_, hadmits, not_genuine_forgedKey h.deployed halpha hbeta, ?_⟩, ?_⟩
  · refine List.forall_mem_singleton.2 (List.forall_mem_singleton.2 ?_)
    rw [World.revocationList, hrevocation]
    exact (by decide : RevocationList.tag ⟨revocationPath exampleData, default⟩ "b" ≠ "a@epoch0")
  · obtain ⟨key, hissued⟩ := exists_issueOutcome exampleFresh hadmits hbeta fun usk husk t ht => by
      obtain rfl := Except.ok.inj husk
      obtain rfl : t = "a@epoch0" := by
        rcases (AList.mem_insert _).1 ht with heq | hmem
        · exact heq
        · exact absurd hmem (AList.notMem_empty _)
      exact Or.inr hregistered
    obtain ⟨input, hadmits', -, hmsk, -, -, ⟨calls, -, hpp⟩, r, hminted⟩ := issueOutcome_eq_ok hissued
    obtain ⟨hpp', hmsk', -⟩ := hforged.admits hC hX hD hadmits'
    have hdeployed : Deployed exponents w.msk key.pp :=
      hpp ▸ hpp' ▸ h.deployed.registerAll calls
    have hafter := hforged.afterIssue (show '/' ∉ issueToEve.user.toList from heve) exampleFresh
      hdeployed (hmsk.trans hmsk')
    refine ⟨_, key.usk, ?_, hafter.userKeyOn_eq hC hX hD heve ?_, ?_⟩
    · rw [exec_cmdIssue, hissued, Cmd.andThen_ok]
      rfl
    · exact (World.keys_withKey ((w.withKey "eve" forgedKey).withParams key.pp) "eve" key.usk
        "eve").trans (if_pos rfl)
    · refine (hminted.mem _).2 (mem_mergeExisting.2 (Or.inr ⟨forgedKey, ?_, hmem⟩))
      exact hadmits'.existing_eq_ok.2 hkey

/-! ## Epochs -/

variable (C : Curve F G₁ G₂ Gₜ) (A : Cipher) (D : Codec) (cwd data : Path)

variable (F G₁ G₂ Gₜ) in
/-- A key that was issued in a run: the request, the disk before it, and the key. -/
structure Issuance where
  args : IssueArgs
  disk : Disk
  key : Issued F G₁ G₂ Gₜ

/-- The key that a command issues. -/
def Call.issuance (call : Call F) (d : Disk) : Option (Issuance F G₁ G₂ Gₜ) :=
  match call.command with
  | .issue args => (issueOutcome C D data args call.fresh d).toOption.map fun key => ⟨args, d, key⟩
  | _ => none

/-- The keys that are issued in a run. -/
def issuances : List (Call F) → Disk → List (Issuance F G₁ G₂ Gₜ)
  | [], _ => []
  | call :: calls, d =>
    (call.issuance C D data d).toList ++ issuances calls (call.exec C A D cwd data d).2

/-- The name is a tag of the current epoch of its attribute. -/
def Current (d : Disk) (t : String) : Prop :=
  ∃ rl a, revocationOn D data d = .ok rl ∧ t = rl.tag a

/-- All attributes of the new key are current. -/
def Issuance.IsCurrent (i : Issuance F G₁ G₂ Gₜ) : Prop :=
  ∀ t ∈ i.key.usk.attributes, Current D data i.disk t

/-- All names in the key file that the command finds are current. -/
def Issuance.FindsCurrent (i : Issuance F G₁ G₂ Gₜ) : Prop :=
  ∀ onFile, userKeyOn C D data i.args.user i.disk = .ok onFile →
    ∀ t ∈ onFile.attributes, Current D data i.disk t

variable {C A D cwd data}

theorem issuance_issue (args : IssueArgs) (fresh : Fresh F) (d : Disk) :
    (Call.mk (.issue args) fresh).issuance C D data d =
      (issueOutcome C D data args fresh d).toOption.map fun key => ⟨args, d, key⟩ := rfl

theorem mem_issuance {call : Call F} {d : Disk} {i : Issuance F G₁ G₂ Gₜ}
    (h : i ∈ call.issuance C D data d) :
    issueOutcome C D data i.args call.fresh i.disk = .ok i.key := by
  unfold Call.issuance at h
  split at h
  · obtain ⟨key, hkey, rfl⟩ := Option.map_eq_some_iff.1 h
    cases hissued : issueOutcome C D data _ call.fresh d with
    | error e => rw [hissued] at hkey; cases hkey
    | ok key' => rw [hissued] at hkey; exact congrArg Except.ok (Option.some.inj hkey)
  · cases h

/-- **One issue** has current attributes only exactly if it finds a key file with current names. -/
theorem Issuance.isCurrent_iff {i : Issuance F G₁ G₂ Gₜ} {fresh : Fresh F}
    (h : issueOutcome C D data i.args fresh i.disk = .ok i.key) :
    i.IsCurrent D data ↔ i.FindsCurrent C D data := by
  obtain ⟨input, hadmits, -, -, -, -, -, r, hminted⟩ := issueOutcome_eq_ok h
  constructor
  · intro hcurrent onFile honFile t ht
    exact hcurrent t ((hminted.mem t).2 (mem_mergeExisting.2
      (Or.inr ⟨onFile, hadmits.existing_eq_ok.2 honFile, ht⟩)))
  · intro hfinds t ht
    rcases mem_mergeExisting.1 ((hminted.mem t).1 ht) with htag | ⟨onFile, honFile, hon⟩
    · obtain ⟨a, -, rfl⟩ := List.mem_map.1 htag
      exact ⟨input.revocation, a, hadmits.revocation, rfl⟩
    · exact hfinds onFile (hadmits.existing_eq_ok.1 honFile) t hon

theorem exists_of_mem_issuances {calls : List (Call F)} {d : Disk} {i : Issuance F G₁ G₂ Gₜ}
    (h : i ∈ issuances C A D cwd data calls d) :
    ∃ fresh, issueOutcome C D data i.args fresh i.disk = .ok i.key := by
  induction calls generalizing d with
  | nil => cases h
  | cons call calls ih =>
    rcases List.mem_append.1 h with hnow | hlater
    · exact ⟨call.fresh, mem_issuance (Option.mem_toList.1 hnow)⟩
    · exact ih hlater

/-- **Issuing with current epochs**: in any run, from any disk, the keys that are issued have attributes
of the current epochs only exactly if every issue finds a key file of the user with current names only,
or none. -/
theorem current_iff_onFile (calls : List (Call F)) (d : Disk) :
    (∀ i ∈ issuances C A D cwd data calls d, i.IsCurrent D data) ↔
      ∀ i ∈ issuances C A D cwd data calls d, i.FindsCurrent C D data := by
  apply forall₂_congr
  intro i hi
  obtain ⟨fresh, hissued⟩ := exists_of_mem_issuances hi
  exact Issuance.isCurrent_iff hissued

omit [DecidableEq F] in
/-- In a deployment, the names in the key file of a user are the tags that were granted to the user. -/
theorem Represents.findsCurrent_iff (hC : C.ReadsBack) (hX : D.HexReadsBack) (hD : D.ReadsShallow)
    {i : Issuance F G₁ G₂ Gₜ} {w : World F G₁ G₂ Gₜ} {past : List Happening}
    (h : Represents C D data i.disk w) (ht : w.Tells C A D past) (huser : '/' ∉ i.args.user.toList) :
    i.FindsCurrent C D data ↔
      ∀ t ∈ grantedTags past i.args.user, ∃ a, t = (w.revocationList data).tag a := by
  have hcurrent : ∀ t, Current D data i.disk t ↔ ∃ a, t = (w.revocationList data).tag a := by
    intro t
    rw [Current, h.revocationOn_eq hD]
    constructor
    · rintro ⟨rl, a, hrl, rfl⟩
      exact ⟨a, by rw [Except.ok.inj hrl]⟩
    · rintro ⟨a, rfl⟩
      exact ⟨_, a, rfl, rfl⟩
  unfold Issuance.FindsCurrent
  simp only [hcurrent]
  rcases ht.keys i.args.user with ⟨hnone, htags⟩ | ⟨usk, attrs, r, hkey, hminted, hattrs⟩
  · rw [h.userKeyOn_eq_err huser hnone, htags]
    exact ⟨fun _ => List.forall_mem_nil _, fun _ => nofun⟩
  · rw [h.userKeyOn_eq hC hX hD huser hkey]
    constructor
    · exact fun hfinds t ht => hfinds usk rfl t ((hminted.mem t).2 ((hattrs t).2 ht))
    · intro hgranted onFile honFile t ht
      obtain rfl := Except.ok.inj honFile
      exact hgranted t ((hattrs t).1 ((hminted.mem t).1 ht))

/-! ### A revocation between two issues -/

/-- The attribute `a` is issued to Alice and then revoked. -/
def exampleRevoked : List (Call Scalar) := exampleRun ++ [⟨.revokeAttribute "a", exampleFresh⟩]

/-- After it, Alice is issued the attribute `b`. -/
def exampleReissue : List (Call Scalar) := exampleRevoked ++ [⟨.issue (issueToAlice "b"), exampleFresh⟩]

theorem issuances_append (calls calls' : List (Call F)) (d : Disk) :
    (issuances C A D cwd data (calls ++ calls') d : List (Issuance F G₁ G₂ Gₜ)) =
      issuances C A D cwd data calls d ++
        issuances C A D cwd data calls' (runAll C A D cwd data calls d) := by
  induction calls generalizing d with
  | nil => rfl
  | cons call calls ih => rw [List.cons_append, issuances, ih, issuances, List.append_assoc]; rfl

theorem exists_represents_exampleRevoked : ∃ w : World Scalar Scalar Scalar Scalar,
    Represents exponents serdeJsonUnlimited exampleData
      (runAll exponents boxes serdeJsonUnlimited exampleCwd exampleData exampleRevoked emptyDisk) w ∧
    w.Tells exponents boxes serdeJsonUnlimited [exampleIssued] ∧ w.msk.beta ≠ 0 ∧
    w.registry = AuthorityRegistry.new.register "root" [] ∧
    w.revocationList exampleData =
      RevocationList.bumped ⟨revocationPath exampleData, default⟩ "a" := by
  obtain ⟨w, h, -, ht, -, hbeta, hregistry, hrevocation⟩ := exists_represents_exampleRun
  have hlist : w.revocationList exampleData = ⟨revocationPath exampleData, default⟩ := by
    rw [World.revocationList, hrevocation]
    rfl
  have hafter := h.revokeAttribute boxes exampleCwd readsBack_serdeJsonUnlimited.shallow "a"
    exampleFresh
  rw [hlist] at hafter
  rw [exampleRevoked, runAll_append, runAll_cons, runAll_nil]
  exact ⟨_, hafter, ht.of_eq rfl rfl rfl rfl, hbeta, hregistry, rfl⟩

/-- **An old epoch is issued again**: the last key of the run has the attribute `a` with the epoch it had
before the revocation. -/
theorem not_current_exampleReissue : ∃ i ∈ (issuances exponents boxes serdeJsonUnlimited exampleCwd
      exampleData exampleReissue emptyDisk : List (Issuance Scalar Scalar Scalar Scalar)),
    i.args = issueToAlice "b" ∧
    (∃ rl, revocationOn serdeJsonUnlimited exampleData i.disk = .ok rl ∧ rl.currentEpoch "a" = 1) ∧
    "a@epoch0" ∈ i.key.usk.attributes ∧ ¬ Current serdeJsonUnlimited exampleData i.disk "a@epoch0" := by
  have hC := readsBack_exponents
  have hX := hexReadsBack_serdeJsonUnlimited
  have hD := readsBack_serdeJsonUnlimited.shallow
  obtain ⟨w, h, ht, hbeta, hregistry, hlist⟩ := exists_represents_exampleRevoked
  have hpermitted : ∀ claim ∈ [Claim.flag "b"],
      w.registry.checkPermission "root" claim = .ok () := by
    rw [hregistry]
    exact List.forall_mem_singleton.2 rfl
  have hrevoked : (w.revocationList exampleData).isUserRevoked "alice" = false := by
    rw [hlist]
    rfl
  obtain ⟨hok, -⟩ := h.exec_issue exampleCwd hC hX hD ht hbeta (issueToAlice "b") (by decide) hrevoked
    rfl hpermitted exampleFresh
  rw [exampleReissue, issuances_append]
  generalize runAll exponents boxes serdeJsonUnlimited exampleCwd exampleData exampleRevoked emptyDisk = d
    at h hok ⊢
  rw [exec_issue, exec_cmdIssue] at hok
  cases hissued : (issueOutcome exponents serdeJsonUnlimited exampleData (issueToAlice "b") exampleFresh d :
      Outcome String (Issued Scalar Scalar Scalar Scalar)) with
  | error e =>
    rw [hissued, Cmd.andThen_error] at hok
    cases hok
  | ok key =>
    have hcall : (Call.mk (.issue (issueToAlice "b")) exampleFresh).issuance exponents
        serdeJsonUnlimited exampleData d = some ⟨issueToAlice "b", d, key⟩ := by
      rw [issuance_issue, hissued]
      rfl
    have hrl := h.revocationOn_eq hD
    obtain ⟨input, hadmits, -, -, -, -, -, r, hminted⟩ := issueOutcome_eq_ok hissued
    refine ⟨⟨issueToAlice "b", d, key⟩, ?_, rfl, ⟨_, hrl, ?_⟩, ?_, ?_⟩
    · apply List.mem_append_right _
      rw [issuances, hcall]
      exact List.mem_append_left _ (List.mem_singleton.2 rfl)
    · rw [hlist]
      decide
    · refine (hminted.mem _).2 (mem_mergeExisting.2 (Or.inr ?_))
      exact (h.mem_existing hC hX hD ht (by decide) hadmits _).2 (by decide)
    · rintro ⟨rl, a, hrl', htag⟩
      obtain rfl := Except.ok.inj (hrl.symm.trans hrl')
      have hold : RevocationList.tag ⟨revocationPath exampleData, default⟩ "a" = "a@epoch0" := by decide
      rw [← hold, tag_eq_tag] at htag
      obtain ⟨rfl, hepoch⟩ := htag
      rw [hlist] at hepoch
      exact absurd hepoch (by decide)

end SecureABE.Cli
