import SecureABE.Cli.Reissuing

/-!
# Levels under revocation

A numeric claim grants an attribute for each level up to its value, and each of these attributes has an
epoch of its own. What a key has of a level therefore depends on the epoch of that level only: a revoked
level is lost, and the levels above it stay (`not_cumulative_exampleDemotion`). A level of a key goes
back to an issue that granted all levels below it as well, each with the epoch of the time
(`levels_of_satisfied`), so that a lower level is there unless its epoch has changed since.
-/

namespace SecureABE.Cli

open Rust SecureABE.Core SecureABE.Policy SecureABE.Revocation SecureABE.Authorities SecureABE.Audit
  SecureABE.Storage

variable {F G₁ G₂ Gₜ : Type} [Field F] [DecidableEq F] [AddCommGroup G₁] [Module F G₁]
  [AddCommGroup G₂] [Module F G₂] [AddCommGroup Gₜ] [Module F Gₜ]

/-! ## Levels -/

/-- The attributes of a numeric claim are its levels. -/
theorem mem_resolve_numeric {key : String} {value max : Int} {a : String} :
    a ∈ (Claim.numeric key value max).resolve ↔
      ∃ i : ℕ, 1 ≤ i ∧ (i : Int) ≤ min value max ∧ a = Claim.atLeast key i := by
  rw [Claim.resolve, List.mem_map]
  apply exists_congr
  intro i
  rw [List.mem_range'_1]
  constructor
  · rintro ⟨⟨hlow, hhigh⟩, rfl⟩
    exact ⟨hlow, by omega, rfl⟩
  · rintro ⟨hlow, hhigh, rfl⟩
    exact ⟨⟨hlow, by omega⟩, rfl⟩

/-- A level determines its key and its number. -/
theorem atLeast_inj {key key' : String} {i j : ℕ} :
    Claim.atLeast key i = Claim.atLeast key' j ↔ key = key' ∧ i = j := by
  constructor
  · intro h
    have hlist : (key.toList ++ ['>']) ++ '=' :: (toString i).toList =
        (key'.toList ++ ['>']) ++ '=' :: (toString j).toList := by
      simpa [Claim.atLeast] using congrArg String.toList h
    obtain ⟨hkey, -, hdigits⟩ := append_cons_inj rfl rfl (fun _ => isDigit_of_mem_toString)
      (fun _ => isDigit_of_mem_toString) hlist
    exact ⟨String.toList_injective (List.append_cancel_right hkey),
      toString_nat_injective (String.toList_injective hdigits)⟩
  · rintro ⟨rfl, rfl⟩
    rfl

/-- A numeric claim with a level has all levels below. -/
theorem atLeast_mem_resolve_of_le {key key' : String} {value max : Int} {m n : ℕ}
    (h : Claim.atLeast key n ∈ (Claim.numeric key' value max).resolve) (hm : 1 ≤ m) (hmn : m ≤ n) :
    Claim.atLeast key m ∈ (Claim.numeric key' value max).resolve := by
  obtain ⟨i, -, hi, heq⟩ := mem_resolve_numeric.1 h
  obtain ⟨rfl, rfl⟩ := atLeast_inj.1 heq
  exact mem_resolve_numeric.2 ⟨m, hm, by omega, rfl⟩

omit [AddCommGroup G₂] in
/-- A key satisfies a leaf that is tagged now exactly if it has the tag. -/
theorem isSatisfiedBy_retagTree_leaf {usk : UserSecretKey G₂} {rl : RevocationList} {a : String} :
    (retagTree (.leaf a) rl).isSatisfiedBy usk.attributeNames = true ↔ rl.tag a ∈ usk.attributes := by
  rw [retagTree_leaf, AccessTree.isSatisfiedBy_leaf, decide_eq_true_eq, UserSecretKey.attributeNames,
    HashMap.mem_keys_iter]

/-! ## Key files -/

section KeyFile

variable (C : Curve F G₁ G₂ Gₜ) (D : Codec) (data : Path)

/-- A file holds a key. -/
def HoldsKey (p : Path) (d : Disk) (usk : UserSecretKey G₂) : Prop :=
  ∃ s, Fs.textOf (d.read p) = .ok s ∧ userKeyFromJson C D s = .ok usk

variable {C D data} {p q : Path} {d : Disk} {usk : UserSecretKey G₂}

omit [DecidableEq F]

theorem userKeyOn_eq_ok {user : String} :
    userKeyOn C D data user d = .ok usk ↔ HoldsKey C D (keyFile data user) d usk := by
  rw [userKeyOn, bind_eq_ok]
  exact exists_congr fun s => and_congr Outcome.mapErr_eq_ok Outcome.mapErr_eq_ok

theorem HoldsKey.congr {d' : Disk} (h : HoldsKey C D p d usk)
    (hp : d.files.lookup p = d'.files.lookup p) : HoldsKey C D p d' usk := by
  rwa [HoldsKey, ← Disk.read_congr hp]

/-- The key in a file that the program wrote. -/
theorem HoldsKey.eq_of_write (hC : C.ReadsBack) (hX : D.HexReadsBack) (hD : D.ReadsShallow)
    {usk' : UserSecretKey G₂} (h : HoldsKey C D p (d.write p (userKeyBytes C D usk')) usk) :
    usk = usk' := by
  obtain ⟨s, htext, hkey⟩ := h
  rw [Disk.read_of_lookup (Disk.lookup_write_self d p _), userKeyBytes, Fs.textOf_utf8] at htext
  obtain rfl := Except.ok.inj htext
  rw [userKeyFromJson_toJson hC hX
    (hD _ ((userKeyDto C D usk').depth_toJson.trans_lt (by decide)))] at hkey
  exact (Except.ok.inj hkey).symm

/-- An object without a subject is not a key: after it is written, a key is one that was there before,
in another file. -/
theorem HoldsKey.of_write_obj (hD : D.ReadsShallow) {ms : List (String × Json)}
    (hms : "subject" ∉ ms.map Prod.fst) (hdepth : (Json.obj ms).depth < 128)
    (h : HoldsKey C D p (d.write q (utf8 (D.toStringPretty (.obj ms)))) usk) :
    HoldsKey C D p d usk := by
  by_cases hpq : p = q
  · subst hpq
    obtain ⟨s, htext, hkey⟩ := h
    rw [Disk.read_of_lookup (Disk.lookup_write_self d p _), Fs.textOf_utf8] at htext
    obtain rfl := Except.ok.inj htext
    rw [userKeyFromJson, hD _ hdepth, ok_bind, UserSecretKeyDto.fromJson,
      Json.structFields_missing hms] at hkey
    cases hkey
  · exact h.congr (Disk.lookup_write_ne hpq d _)

theorem HoldsKey.of_write_setup (hD : D.ReadsShallow) {pp : PublicParams G₁ G₂ Gₜ}
    {msk : MasterSecret F} (h : HoldsKey C D p (d.write q (setupBytes C D pp msk)) usk) :
    HoldsKey C D p d usk :=
  h.of_write_obj hD (by simp) ((setupBundleDto C D pp msk).depth_toJson.trans_lt (by decide))

theorem HoldsKey.of_write_registry (hD : D.ReadsShallow) {reg : AuthorityRegistry}
    (h : HoldsKey C D p (d.write q (registryBytes D reg)) usk) : HoldsKey C D p d usk :=
  h.of_write_obj hD (by simp) (reg.depth_toJson.trans_lt (by decide))

theorem HoldsKey.of_write_revocation (hD : D.ReadsShallow) {st : RevocationState}
    (h : HoldsKey C D p (d.write q (RevocationList.encode D st)) usk) : HoldsKey C D p d usk :=
  h.of_write_obj hD (by simp) (st.depth_toJson.trans_lt (by decide))

theorem HoldsKey.of_append_audit {user : String} {b : Bytes}
    (h : HoldsKey C D (keyFile data user) (d.append (auditPath data) b) usk) :
    HoldsKey C D (keyFile data user) d usk :=
  h.congr (Disk.lookup_append_ne (keyFile_ne_auditPath user) d b)

end KeyFile

/-! ## Where the attributes of a key come from -/

variable (C : Curve F G₁ G₂ Gₜ) (A : Cipher) (D : Codec) (cwd data : Path)

/-- The attribute is among the claims of an issue that finds the revocation list. -/
def Issuance.Grants (i : Issuance F G₁ G₂ Gₜ) (rl : RevocationList) (a : String) : Prop :=
  revocationOn D data i.disk = .ok rl ∧
    ∃ claims, parseClaims i.args.flags i.args.texts i.args.numerics = .ok claims ∧ a ∈ resolved claims

/-- The key in the file has all tags that the issue granted. -/
def Issuance.GrantedTo (i : Issuance F G₁ G₂ Gₜ) (user : String) (usk : UserSecretKey G₂) : Prop :=
  keyFile data i.args.user = keyFile data user ∧
    ∀ rl a, i.Grants D data rl a → rl.tag a ∈ usk.attributes

/-- Every attribute of a user's key comes from an issue to the key file whose tags are all in the key. -/
def Sourced (past : List (Issuance F G₁ G₂ Gₜ)) (user : String) (d : Disk) : Prop :=
  ∀ usk, userKeyOn C D data user d = .ok usk → ∀ t ∈ usk.attributes,
    ∃ i ∈ past, i.GrantedTo D data user usk ∧ ∃ rl a, i.Grants D data rl a ∧ t = rl.tag a

/-- The command neither encrypts nor decrypts. -/
def Command.Administers : Command → Prop
  | .encrypt .. => False
  | .decrypt .. => False
  | _ => True

section Runs

variable {C A D cwd data} {past : List (Issuance F G₁ G₂ Gₜ)} {user : String} {d d' : Disk}

omit [DecidableEq F] in
/-- Where no new key appears in the file, its attributes come from where they came from. -/
theorem Sourced.of_holdsKey (h : Sourced C D data past user d) (now : List (Issuance F G₁ G₂ Gₜ))
    (hkeys : ∀ usk, HoldsKey C D (keyFile data user) d' usk → HoldsKey C D (keyFile data user) d usk) :
    Sourced C D data (past ++ now) user d' := by
  intro usk husk t ht
  obtain ⟨i, hi, hsource⟩ := h usk (userKeyOn_eq_ok.2 (hkeys usk (userKeyOn_eq_ok.1 husk))) t ht
  exact ⟨i, List.mem_append_left _ hi, hsource⟩

variable (hC : C.ReadsBack) (hX : D.HexReadsBack) (hD : D.ReadsShallow)
include hC hX hD

/-- An issue to the same key file adds its tags to those in the file. -/
theorem Sourced.afterIssue (h : Sourced C D data past user d) {args : IssueArgs} {fresh : Fresh F}
    {key : Issued F G₁ G₂ Gₜ} (hissued : issueOutcome C D data args fresh d = .ok key) :
    Sourced C D data (past ++ [⟨args, d, key⟩]) user (afterIssue C D data args fresh key d) := by
  by_cases hfile : keyFile data args.user = keyFile data user
  · obtain ⟨input, hadmits, -, -, -, -, -, r, hminted⟩ := issueOutcome_eq_ok hissued
    have hgrants : ∀ rl a, Issuance.Grants D data ⟨args, d, key⟩ rl a ↔
        rl = input.revocation ∧ a ∈ resolved input.claims := by
      intro rl a
      rw [Issuance.Grants, hadmits.revocation, hadmits.claims, @eq_comm _ rl]
      simp only [Except.ok.injEq, exists_eq_left']
    have hmem : ∀ t, t ∈ key.usk.attributes ↔ t ∈ (resolved input.claims).map input.revocation.tag ∨
        ∃ onFile, input.existing = .ok onFile ∧ t ∈ onFile.attributes := fun t => by
      rw [hminted.mem t, IssueInput.names, mem_mergeExisting]
    intro usk husk t ht
    have hholds := (userKeyOn_eq_ok.1 husk).of_append_audit
    rw [hfile] at hholds
    obtain rfl := hholds.eq_of_write hC hX hD
    rcases (hmem t).1 ht with hnew | ⟨onFile, honFile, hold⟩
    · obtain ⟨a, ha, rfl⟩ := List.mem_map.1 hnew
      refine ⟨_, List.mem_append_right _ (List.mem_singleton.2 rfl), ⟨hfile, ?_⟩, input.revocation, a,
        (hgrants _ a).2 ⟨rfl, ha⟩, rfl⟩
      intro rl b hgranted
      obtain ⟨rfl, hb⟩ := (hgrants rl b).1 hgranted
      exact (hmem _).2 (Or.inl (List.mem_map_of_mem hb))
    · -- the key that is found is the one in the file, under whichever name of the user
      have hfound := userKeyOn_eq_ok.1 (hadmits.existing_eq_ok.1 honFile)
      rw [hfile] at hfound
      obtain ⟨i, hi, ⟨hiuser, hall⟩, hsource⟩ := h onFile (userKeyOn_eq_ok.2 hfound) t hold
      exact ⟨i, List.mem_append_left _ hi, ⟨hiuser, fun rl b hb =>
        (hmem _).2 (Or.inr ⟨onFile, honFile, hall rl b hb⟩)⟩, hsource⟩
  · apply h.of_holdsKey _
    intro usk husk
    have hother := husk.of_append_audit.congr (Disk.lookup_write_ne (Ne.symm hfile) _ _)
    exact HoldsKey.of_write_setup (q := setupPath data) hD hother

/-- **One command** that administers keeps the sources. -/
theorem Sourced.step (h : Sourced C D data past user d) {call : Call F}
    (hcall : call.command.Administers) :
    Sourced C D data (past ++ (call.issuance C D data d).toList) user (call.exec C A D cwd data d).2 := by
  obtain ⟨command, fresh⟩ := call
  cases command with
  | setup =>
    apply h.of_holdsKey _
    intro usk husk
    rw [exec_setup, exec_cmdSetup] at husk
    exact (husk.of_append_audit.of_write_registry hD).of_write_setup hD
  | registerAuthority name controls =>
    apply h.of_holdsKey _
    intro usk husk
    change HoldsKey C D _ (Fs.exec (cmdRegisterAuthority D data name controls) d).2 usk at husk
    rw [exec_cmdRegisterAuthority] at husk
    cases hreg : registryOn D data d with
    | error e => rwa [hreg] at husk
    | ok reg =>
      rw [hreg] at husk
      exact HoldsKey.of_write_registry hD husk
  | issue args =>
    rw [issuance_issue, exec_issue, exec_cmdIssue]
    cases hissued : issueOutcome C D data args fresh d with
    | error e => exact h.of_holdsKey _ fun usk husk => husk
    | ok key => exact h.afterIssue hC hX hD hissued
  | encrypt file policy => exact hcall.elim
  | decrypt id user out => exact hcall.elim
  | revokeAttribute attr =>
    apply h.of_holdsKey _
    intro usk husk
    change HoldsKey C D _ (Fs.exec (cmdRevokeAttribute D data attr fresh) d).2 usk at husk
    rw [exec_cmdRevokeAttribute] at husk
    cases hrl : revocationOn D data d with
    | error e => rwa [hrl] at husk
    | ok rl =>
      rw [hrl] at husk
      exact HoldsKey.of_write_revocation hD husk.of_append_audit
  | revokeUser revoked =>
    apply h.of_holdsKey _
    intro usk husk
    change HoldsKey C D _ (Fs.exec (cmdRevokeUser D data revoked fresh) d).2 usk at husk
    rw [exec_cmdRevokeUser] at husk
    cases hrl : revocationOn D data d with
    | error e => rwa [hrl] at husk
    | ok rl =>
      rw [hrl] at husk
      exact HoldsKey.of_write_revocation hD husk.of_append_audit

/-- **A run** keeps the sources. -/
theorem Sourced.runAll (h : Sourced C D data past user d) {calls : List (Call F)}
    (hcalls : ∀ call ∈ calls, call.command.Administers) :
    Sourced C D data (past ++ issuances C A D cwd data calls d) user
      (runAll C A D cwd data calls d) := by
  induction calls generalizing d past with
  | nil => rwa [issuances, List.append_nil]
  | cons call calls ih =>
    rw [issuances, ← List.append_assoc, runAll_cons]
    exact ih (h.step hC hX hD (hcalls call (by simp))) fun call hcall => hcalls call (by simp [hcall])

end Runs

/-! ## Levels of a key -/

/-- The levels of a key of the user are issued as numeric claims only. -/
def NumericOnly (issued : List (Issuance F G₁ G₂ Gₜ)) (user key : String) : Prop :=
  ∀ i ∈ issued, keyFile data i.args.user = keyFile data user → ∀ claims,
    parseClaims i.args.flags i.args.texts i.args.numerics = .ok claims →
      ∀ claim ∈ claims, ∀ n, Claim.atLeast key n ∈ claim.resolve →
        ∃ key' value max, claim = .numeric key' value max

variable {C A D cwd data} in
/-- **A level that a key has** was granted, at the epoch it has now, by an issue that granted all levels
below it. The key has each of these as well, unless its epoch has changed since. The epochs are those of
any revocation list, in particular of the one on the disk after the run. -/
theorem levels_of_satisfied (hC : C.ReadsBack) (hX : D.HexReadsBack) (hD : D.ReadsShallow) {d : Disk}
    {user key : String} (hd : ∀ usk, userKeyOn C D data user d ≠ .ok usk) {calls : List (Call F)}
    (hcalls : ∀ call ∈ calls, call.command.Administers)
    (hnumeric : NumericOnly data (issuances C A D cwd data calls d) user key)
    {usk : UserSecretKey G₂} (husk : userKeyOn C D data user (runAll C A D cwd data calls d) = .ok usk)
    {rl : RevocationList} {n : ℕ}
    (h : (retagTree (.leaf (Claim.atLeast key n)) rl).isSatisfiedBy usk.attributeNames = true) :
    ∃ i ∈ issuances C A D cwd data calls d, keyFile data i.args.user = keyFile data user ∧
      ∃ then_, i.Grants D data then_ (Claim.atLeast key n) ∧
        then_.currentEpoch (Claim.atLeast key n) = rl.currentEpoch (Claim.atLeast key n) ∧
        ∀ m, 1 ≤ m → m ≤ n → i.Grants D data then_ (Claim.atLeast key m) ∧
          (then_.currentEpoch (Claim.atLeast key m) = rl.currentEpoch (Claim.atLeast key m) →
            (retagTree (.leaf (Claim.atLeast key m)) rl).isSatisfiedBy usk.attributeNames = true) := by
  have hstart : Sourced C D data ([] : List (Issuance F G₁ G₂ Gₜ)) user d :=
    fun usk husk => absurd husk (hd usk)
  have hsourced : Sourced C D data (issuances C A D cwd data calls d) user
      (runAll C A D cwd data calls d) := hstart.runAll hC hX hD hcalls
  obtain ⟨i, hi, ⟨hfile, hall⟩, then_, a, hgrants, htag⟩ :=
    hsourced usk husk _ (isSatisfiedBy_retagTree_leaf.1 h)
  obtain ⟨rfl, hepoch⟩ := tag_eq_tag.1 htag
  refine ⟨i, hi, hfile, then_, hgrants, hepoch.symm, fun m hm hmn => ?_⟩
  obtain ⟨hthen, claims, hclaims, hmem⟩ := hgrants
  obtain ⟨claim, hclaim, hlevel⟩ := List.mem_flatMap.1 hmem
  obtain ⟨key', value, max, rfl⟩ := hnumeric i hi hfile claims hclaims claim hclaim n hlevel
  have hbelow : i.Grants D data then_ (Claim.atLeast key m) :=
    ⟨hthen, claims, hclaims,
      List.mem_flatMap.2 ⟨_, hclaim, atLeast_mem_resolve_of_le hlevel hm hmn⟩⟩
  refine ⟨hbelow, fun hsame => isSatisfiedBy_retagTree_leaf.2 ?_⟩
  rw [tag_eq_tag.2 ⟨rfl, hsame.symm⟩]
  exact hall then_ _ hbelow

/-! ### A level revoked below another -/

/-- The clearances up to five for Alice. -/
def issueClearance : IssueArgs := ⟨"root", "alice", [], [], ["clearance=5:10"]⟩

theorem parseClaims_issueClearance : parseClaims issueClearance.flags issueClearance.texts
    issueClearance.numerics = .ok [.numeric "clearance" 5 10] := by
  have hcolon : splitOnce ':' "clearance=5:10".toList = some ("clearance=5".toList, "10".toList) := rfl
  have hequals : splitOnce '=' "clearance=5".toList = some ("clearance".toList, "5".toList) := rfl
  have hvalue : parseI64 "5".toList = some 5 := rfl
  have hmax : parseI64 "10".toList = some 10 := rfl
  simp only [parseClaims, issueClearance, Outcome.mapList, parseNumeric, hcolon, hequals, hvalue, hmax,
    Outcome.okOr_some, ok_bind, String.ofList_toList]
  rfl

/-- Alice is cleared for five levels. -/
def exampleClearance : List (Call Scalar) :=
  [⟨.setup, exampleFresh⟩, ⟨.registerAuthority "root" "", exampleFresh⟩,
    ⟨.issue issueClearance, exampleFresh⟩]

/-- After it, the fourth level is revoked. -/
def exampleDemotion : List (Call Scalar) :=
  exampleClearance ++ [⟨.revokeAttribute "clearance>=4", exampleFresh⟩]

variable {C A D cwd data} in
/-- An issue of a run is one of its commands. -/
theorem exists_call_of_mem_issuances {calls : List (Call F)} {d : Disk} {i : Issuance F G₁ G₂ Gₜ}
    (h : i ∈ issuances C A D cwd data calls d) : ∃ call ∈ calls, call.command = .issue i.args := by
  induction calls generalizing d with
  | nil => cases h
  | cons call calls ih =>
    rcases List.mem_append.1 h with hnow | hlater
    · refine ⟨call, by simp, ?_⟩
      rw [Option.mem_toList, Call.issuance] at hnow
      split at hnow
      · next args hcommand =>
        obtain ⟨key, -, rfl⟩ := Option.map_eq_some_iff.1 hnow
        exact hcommand
      · cases hnow
    · obtain ⟨call', hcall', hcommand⟩ := ih hlater
      exact ⟨call', by simp [hcall'], hcommand⟩

theorem command_of_mem_exampleDemotion {call : Call Scalar} (h : call ∈ exampleDemotion) :
    call.command = .setup ∨ call.command = .registerAuthority "root" "" ∨
      call.command = .issue issueClearance ∨ call.command = .revokeAttribute "clearance>=4" := by
  simp only [exampleDemotion, exampleClearance, List.cons_append, List.nil_append, List.mem_cons,
    List.not_mem_nil, or_false] at h
  rcases h with rfl | rfl | rfl | rfl <;> simp

theorem numericOnly_exampleDemotion (user : String) : NumericOnly exampleData (issuances exponents boxes
    serdeJsonUnlimited exampleCwd exampleData exampleDemotion emptyDisk :
      List (Issuance Scalar Scalar Scalar Scalar)) user "clearance" := by
  intro i hi _ claims hclaims claim hclaim n _
  obtain ⟨call, hcall, hcommand⟩ := exists_call_of_mem_issuances hi
  have hargs : i.args = issueClearance := by
    have hcases := command_of_mem_exampleDemotion hcall
    rw [hcommand] at hcases
    simpa using hcases
  rw [hargs] at hclaims
  obtain rfl := Except.ok.inj (parseClaims_issueClearance.symm.trans hclaims)
  exact ⟨_, _, _, List.mem_singleton.1 hclaim⟩

/-- What Alice has after the revocation. -/
theorem exists_key_exampleDemotion : ∃ (usk : UserSecretKey Scalar) (rl : RevocationList),
    userKeyOn exponents serdeJsonUnlimited exampleData "alice" (runAll exponents boxes
      serdeJsonUnlimited exampleCwd exampleData exampleDemotion emptyDisk) = .ok usk ∧
    revocationOn serdeJsonUnlimited exampleData (runAll exponents boxes serdeJsonUnlimited exampleCwd
      exampleData exampleDemotion emptyDisk) = .ok rl ∧
    rl = RevocationList.bumped ⟨revocationPath exampleData, default⟩ "clearance>=4" ∧
    ∀ t, t ∈ usk.attributes ↔ t ∈ (Claim.numeric "clearance" 5 10).resolve.map
      (RevocationList.tag ⟨revocationPath exampleData, default⟩) := by
  have hC := readsBack_exponents
  have hX := hexReadsBack_serdeJsonUnlimited
  have hD := readsBack_serdeJsonUnlimited.shallow
  obtain ⟨w, h, -, ht, -, -, hrevocation⟩ := exists_represents_firstIssue issueClearance rfl
    (by decide) parseClaims_issueClearance
  have hlist : w.revocationList exampleData = ⟨revocationPath exampleData, default⟩ := by
    rw [World.revocationList, hrevocation]
    rfl
  have hafter := h.revokeAttribute boxes exampleCwd hD "clearance>=4" exampleFresh
  rw [hlist] at hafter
  rw [exampleDemotion, runAll_append, runAll_cons, runAll_nil, exampleClearance]
  have htags : grantedTags [.issued issueClearance.user (resolved [.numeric "clearance" 5 10])
      ⟨revocationPath exampleData, default⟩] "alice" = (Claim.numeric "clearance" 5 10).resolve.map
        (RevocationList.tag ⟨revocationPath exampleData, default⟩) := by
    rw [grantedTags_issued, show issueClearance.user = "alice" from rfl, if_pos rfl, resolved,
      List.flatMap_singleton]
  rcases ht.keys "alice" with ⟨-, hnone⟩ | ⟨usk, attrs, r, hkey, hminted, hattrs⟩
  · rw [htags, List.map_eq_nil_iff] at hnone
    exact absurd hnone (by decide)
  · refine ⟨usk, _, hafter.userKeyOn_eq hC hX hD (by decide) hkey, hafter.revocationOn_eq hD, rfl,
      fun t => ?_⟩
    rw [hminted.mem t, hattrs t, htags]

/-- **A level is lost and a higher one stays**: after the revocation of the fourth level Alice's key has
the fifth and not the fourth. -/
theorem not_cumulative_exampleDemotion :
    NumericOnly exampleData (issuances exponents boxes serdeJsonUnlimited exampleCwd exampleData
      exampleDemotion emptyDisk : List (Issuance Scalar Scalar Scalar Scalar)) "alice" "clearance" ∧
    ∃ (usk : UserSecretKey Scalar) (rl : RevocationList),
      userKeyOn exponents serdeJsonUnlimited exampleData "alice" (runAll exponents boxes
        serdeJsonUnlimited exampleCwd exampleData exampleDemotion emptyDisk) = .ok usk ∧
      revocationOn serdeJsonUnlimited exampleData (runAll exponents boxes serdeJsonUnlimited exampleCwd
        exampleData exampleDemotion emptyDisk) = .ok rl ∧
      (retagTree (.leaf (Claim.atLeast "clearance" 5)) rl).isSatisfiedBy usk.attributeNames = true ∧
      (retagTree (.leaf (Claim.atLeast "clearance" 4)) rl).isSatisfiedBy usk.attributeNames = false := by
  obtain ⟨usk, rl, husk, hrl, rfl, hmem⟩ := exists_key_exampleDemotion
  refine ⟨numericOnly_exampleDemotion "alice", usk, _, husk, hrl, ?_, ?_⟩
  · rw [isSatisfiedBy_retagTree_leaf, hmem]
    decide
  · rw [← Bool.not_eq_true, isSatisfiedBy_retagTree_leaf, hmem]
    decide

/-- The fifth level goes back to an issue of all five, and the third is still there. -/
theorem levels_exampleDemotion : ∃ (usk : UserSecretKey Scalar) (rl : RevocationList),
    userKeyOn exponents serdeJsonUnlimited exampleData "alice" (runAll exponents boxes
      serdeJsonUnlimited exampleCwd exampleData exampleDemotion emptyDisk) = .ok usk ∧
    (retagTree (.leaf (Claim.atLeast "clearance" 5)) rl).isSatisfiedBy usk.attributeNames = true ∧
    ∃ i ∈ (issuances exponents boxes serdeJsonUnlimited exampleCwd exampleData exampleDemotion emptyDisk :
        List (Issuance Scalar Scalar Scalar Scalar)),
      keyFile exampleData i.args.user = keyFile exampleData "alice" ∧
      ∃ then_, i.Grants serdeJsonUnlimited exampleData then_ (Claim.atLeast "clearance" 5) ∧
        then_.currentEpoch (Claim.atLeast "clearance" 5) =
          rl.currentEpoch (Claim.atLeast "clearance" 5) ∧
        ∀ m, 1 ≤ m → m ≤ 5 → i.Grants serdeJsonUnlimited exampleData then_ (Claim.atLeast "clearance" m) ∧
          (then_.currentEpoch (Claim.atLeast "clearance" m) =
              rl.currentEpoch (Claim.atLeast "clearance" m) →
            (retagTree (.leaf (Claim.atLeast "clearance" m)) rl).isSatisfiedBy usk.attributeNames =
              true) := by
  obtain ⟨usk, rl, husk, -, rfl, hmem⟩ := exists_key_exampleDemotion
  have hfifth : (retagTree (.leaf (Claim.atLeast "clearance" 5)) (RevocationList.bumped
      ⟨revocationPath exampleData, default⟩ "clearance>=4")).isSatisfiedBy usk.attributeNames = true := by
    rw [isSatisfiedBy_retagTree_leaf, hmem]
    decide
  refine ⟨usk, _, husk, hfifth, ?_⟩
  refine levels_of_satisfied readsBack_exponents hexReadsBack_serdeJsonUnlimited
    readsBack_serdeJsonUnlimited.shallow (fun usk husk => ?_) ?_ (numericOnly_exampleDemotion "alice")
    husk hfifth
  · rw [userKeyOn_of_view_none (by decide) rfl] at husk
    cases husk
  · intro call hcall
    rcases command_of_mem_exampleDemotion hcall with h | h | h | h <;> rw [h] <;> exact trivial

end SecureABE.Cli
