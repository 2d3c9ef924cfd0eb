import SecureABE.Authorities.Permission
import SecureABE.Cli.Frames
import SecureABE.Cli.Reissuing

/-!
# Where the attributes of a key come from

Only issuing writes key files, and a key is rebuilt from the names of the previous one and new claims.
Hence every name in a key file that the program wrote was granted by some earlier command of the run, to
the same user, while the user was not revoked and the authority was in charge of the claim
(`provenance_runAll`). The deployment need not be intact: a command that cannot load its files does
nothing.
-/

namespace SecureABE.Cli

open Rust SecureABE.Core SecureABE.Policy SecureABE.Revocation SecureABE.Authorities SecureABE.Storage

variable {F G₁ G₂ Gₜ : Type} [Field F] [DecidableEq F] [AddCommGroup G₁] [Module F G₁]
  [AddCommGroup G₂] [Module F G₂] [AddCommGroup Gₜ] [Module F Gₜ]
variable (C : Curve F G₁ G₂ Gₜ) (A : Cipher) (D : Codec) (cwd data : Path)

/-! ## Grants -/

/-- On a disk, a request is entitled to a tag: the tag is the current one of an attribute of one of its
claims, the authority is registered with controls that are empty or have the prefix of the claim, and
the user is not revoked. -/
def Grants (d : Disk) (args : IssueArgs) (t : String) : Prop :=
  ∃ registry rl claims, registryOn D data d = .ok registry ∧ revocationOn D data d = .ok rl ∧
    parseClaims args.flags args.texts args.numerics = .ok claims ∧
    rl.isUserRevoked args.user = false ∧
    ∃ claim ∈ claims, (∃ authority, registry.authorities.lookup args.authority = some authority ∧
      (authority.controls = [] ∨ claim.keyPrefix ∈ authority.controls)) ∧
      ∃ a ∈ claim.resolve, t = rl.tag a

/-- A command of the run issued the tag to the user, and was entitled to. -/
def Provenance (calls : List (Call F)) (d : Disk) (user t : String) : Prop :=
  ∃ before args fresh after, calls = before ++ ⟨.issue args, fresh⟩ :: after ∧ args.user = user ∧
    (Fs.exec (cmdIssue C D data args fresh) (runAll C A D cwd data before d)).1 = .ok () ∧
    Grants D data (runAll C A D cwd data before d) args t

/-- A command that keeps to its own files as far as keys are concerned: the name of a user does not lead
out of the directory of the keys, and a decrypted document does not replace a key. -/
def Call.KeepsKeys (call : Call F) : Prop :=
  match call.command with
  | .issue args => '/' ∉ args.user.toList
  | .decrypt _ _ out => ∀ user, cwd.join out ≠ (File.key user).path data
  | _ => True

variable {C A D cwd data}

theorem Provenance.append {calls : List (Call F)} {d : Disk} {user t : String}
    (h : Provenance C A D cwd data calls d user t) (calls' : List (Call F)) :
    Provenance C A D cwd data (calls ++ calls') d user t := by
  obtain ⟨before, args, fresh, after, rfl, huser, hok, hgrants⟩ := h
  exact ⟨before, args, fresh, after ++ calls', by simp, huser, hok, hgrants⟩

omit [DecidableEq F] in
/-- The tags of the permitted claims are granted. -/
theorem Admits.grants {args : IssueArgs} {d : Disk} {input : IssueInput G₁ G₂ Gₜ F}
    (h : Admits C D data args d input) {t : String}
    (ht : t ∈ (resolved input.claims).map input.revocation.tag) : Grants D data d args t := by
  obtain ⟨claim, hclaim, a, ha, heq⟩ := mem_map_tag_resolved.1 ht
  exact ⟨input.registry, input.revocation, input.claims, h.registry, h.revocation, h.claims,
    h.notRevoked, claim, hclaim, checkPermission_eq_ok.1 (h.permitted claim hclaim), a, ha, heq⟩

/-! ## The key files -/

omit [Field F] [DecidableEq F] in
theorem Call.KeepsKeys.avoids {call : Call F} (h : call.KeepsKeys cwd data) (user : String) :
    call.Avoids cwd data (.key user) := by
  obtain ⟨command, fresh⟩ := call
  cases command with
  | issue args => exact h
  | decrypt id user' out => exact fun hout => h user hout.symm
  | _ => trivial

/-- **Only issuing changes a key file**, and only the one of its user. -/
theorem view_key_exec (hX : D.HexReadsBack) {call : Call F} (hcall : call.KeepsKeys cwd data) (d : Disk)
    (user : String) :
    view data (call.exec C A D cwd data d).2 (.key user) = view data d (.key user) ∨
      ∃ args key, call.command = .issue args ∧ args.user = user ∧
        issueOutcome C D data args call.fresh d = .ok key ∧
        view data (call.exec C A D cwd data d).2 (.key user) = some (userKeyBytes C D key.usk) := by
  by_cases hfile : File.key user ∈ call.files D
  · obtain ⟨command, fresh⟩ := call
    cases command with
    | issue args =>
      obtain rfl : user = args.user := by simpa [Call.files] using hfile
      rw [exec_issue, exec_cmdIssue]
      cases hkey : issueOutcome C D data args fresh d with
      | error e => exact Or.inl rfl
      | ok key =>
        refine Or.inr ⟨args, key, rfl, rfl, hkey, ?_⟩
        rw [Cmd.andThen_ok, afterIssue, keyFile_eq hcall, auditPath_eq, view_append,
          Function.update_of_ne (by simp), view_write, Function.update_self]
    | _ => simp [Call.files] at hfile
  · exact Or.inl (view_exec hX (hcall.avoids user) hfile d)

/-! ## Runs -/

/-- The key files hold keys for granted tags. -/
def KeysFrom (C : Curve F G₁ G₂ Gₜ) (D : Codec) (data : Path) (granted : String → String → Prop)
    (d : Disk) : Prop :=
  ∀ user, '/' ∉ user.toList → ∀ b, view data d (.key user) = some b →
    ∃ usk, b = userKeyBytes C D usk ∧ ∀ t ∈ usk.attributes, granted user t

section Runs

variable (hC : C.ReadsBack) (hX : D.HexReadsBack) (hD : D.ReadsShallow)
include hC hX hD

/-- **One command** keeps the key files to what was granted before or is granted now. -/
theorem KeysFrom.exec {granted : String → String → Prop} {d : Disk}
    (h : KeysFrom C D data granted d) {call : Call F} (hcall : call.KeepsKeys cwd data) :
    KeysFrom C D data (fun user t => granted user t ∨
      ∃ args, call.command = .issue args ∧ args.user = user ∧
        (Fs.exec (cmdIssue C D data args call.fresh) d).1 = .ok () ∧ Grants D data d args t)
      (call.exec C A D cwd data d).2 := by
  intro user huser b hb
  rcases view_key_exec (C := C) (A := A) hX hcall d user with hview | ⟨args, key, hcommand, rfl, hkey, hview⟩
  · rw [hview] at hb
    obtain ⟨usk, hbytes, hgranted⟩ := h user huser b hb
    exact ⟨usk, hbytes, fun t ht => Or.inl (hgranted t ht)⟩
  · rw [hview] at hb
    refine ⟨key.usk, (Option.some.inj hb).symm, fun t ht => ?_⟩
    obtain ⟨input, hadmits, -, -, -, -, -, r, hminted⟩ := issueOutcome_eq_ok hkey
    rcases mem_mergeExisting.1 ((hminted.mem t).1 ht) with htag | ⟨onFile, honFile, hon⟩
    · refine Or.inr ⟨args, hcommand, rfl, ?_, hadmits.grants htag⟩
      rw [exec_cmdIssue, hkey, Cmd.andThen_ok]
    · -- a name on file was granted before
      have hload := hadmits.existing_eq_ok.1 honFile
      cases hfile : view data d (.key args.user) with
      | none =>
        rw [userKeyOn_of_view_none huser hfile] at hload
        cases hload
      | some b' =>
        obtain ⟨usk, rfl, hgranted⟩ := h args.user huser b' hfile
        rw [userKeyOn_of_view huser hC hX hD hfile] at hload
        obtain rfl := Except.ok.inj hload
        exact Or.inl (hgranted t hon)

/-- **A run** writes keys for tags with a provenance only. -/
theorem keysFrom_runAll {d : Disk} (hd : ∀ user, '/' ∉ user.toList → view data d (.key user) = none)
    {calls : List (Call F)} (hcalls : ∀ call ∈ calls, call.KeepsKeys cwd data) :
    KeysFrom C D data (Provenance C A D cwd data calls d) (runAll C A D cwd data calls d) := by
  induction calls using List.reverseRecOn with
  | nil =>
    intro user huser b hb
    rw [runAll_nil, hd user huser] at hb
    cases hb
  | append_singleton calls call ih =>
    have hbefore := ih fun c hc => hcalls c (by simp [hc])
    have hstep := hbefore.exec (A := A) hC hX hD (hcalls call (by simp))
    rw [runAll_append, runAll_cons, runAll_nil]
    intro user huser b hb
    obtain ⟨usk, hbytes, hgranted⟩ := hstep user huser b hb
    refine ⟨usk, hbytes, fun t ht => ?_⟩
    rcases hgranted t ht with hold | ⟨args, hcommand, heq, hok, hgrants⟩
    · exact hold.append [call]
    · obtain ⟨command, fresh⟩ := call
      obtain rfl : command = .issue args := hcommand
      exact ⟨calls, args, fresh, [], rfl, heq, hok, hgrants⟩

/-- **Provenance of key attributes**: after any run on a disk without key files, every attribute in the
key file of a user was issued to the user by a command of the run that was entitled to. -/
theorem provenance_runAll {d : Disk} (hd : ∀ user, '/' ∉ user.toList → view data d (.key user) = none)
    {calls : List (Call F)} (hcalls : ∀ call ∈ calls, call.KeepsKeys cwd data) {user : String}
    (huser : '/' ∉ user.toList) {usk : UserSecretKey G₂}
    (hkey : userKeyOn C D data user (runAll C A D cwd data calls d) = .ok usk) :
    ∀ t ∈ usk.attributes, Provenance C A D cwd data calls d user t := by
  cases hfile : view data (runAll C A D cwd data calls d) (.key user) with
  | none =>
    rw [userKeyOn_of_view_none huser hfile] at hkey
    cases hkey
  | some b =>
    obtain ⟨usk', rfl, hgranted⟩ := keysFrom_runAll hC hX hD hd hcalls user huser b hfile
    rw [userKeyOn_of_view huser hC hX hD hfile] at hkey
    obtain rfl := Except.ok.inj hkey
    exact hgranted

end Runs

/-- The attribute `a` in the key of Alice. -/
theorem provenance_exampleRun : ∃ usk, userKeyOn exponents serdeJsonUnlimited exampleData "alice"
      (runAll exponents boxes serdeJsonUnlimited exampleCwd exampleData exampleRun emptyDisk) = .ok usk ∧
    "a@epoch0" ∈ usk.attributes ∧
    Provenance exponents boxes serdeJsonUnlimited exampleCwd exampleData exampleRun emptyDisk "alice"
      "a@epoch0" := by
  have hC := readsBack_exponents
  have hX := hexReadsBack_serdeJsonUnlimited
  have hD := readsBack_serdeJsonUnlimited.shallow
  have halice : '/' ∉ "alice".toList := by decide
  have hkeeps : ∀ call ∈ exampleRun, call.KeepsKeys exampleCwd exampleData :=
    List.forall_mem_cons.2 ⟨trivial, List.forall_mem_cons.2 ⟨trivial, List.forall_mem_singleton.2 halice⟩⟩
  obtain ⟨w, h, -, ht, -⟩ := exists_represents_exampleRun
  rcases ht.keys "alice" with ⟨-, htags⟩ | ⟨usk, attrs, r, hkey, hminted, hattrs⟩
  · simp [grantedTags, exampleIssued] at htags
  · have hload := h.userKeyOn_eq hC hX hD halice hkey
    have hmem : "a@epoch0" ∈ usk.attributes := (hminted.mem _).2 ((hattrs _).2 (by decide))
    exact ⟨usk, hload, hmem,
      provenance_runAll hC hX hD (fun _ _ => rfl) hkeeps halice hload "a@epoch0" hmem⟩

end SecureABE.Cli
