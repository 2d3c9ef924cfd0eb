import SecureABE.Authorities.Issue
import SecureABE.Authorities.Permission
import SecureABE.Cli.Runs

/-!
# Who issues

Both copies of the issuing code ask for permission in the loop over the claims, and nowhere else. A key
that is minted for at least one claim is therefore minted by a registered authority that may make all of
them; without a claim nobody is asked, and a key is minted in any name (`issue_authorized`).
-/

namespace SecureABE.Cli

open Rust SecureABE.Core SecureABE.Policy SecureABE.Revocation SecureABE.Authorities SecureABE.Audit
  SecureABE.Storage

variable {F G₁ G₂ Gₜ : Type} [Field F] [DecidableEq F] [AddCommGroup G₁] [Module F G₁]
  [AddCommGroup G₂] [Module F G₂] [AddCommGroup Gₜ] [Module F Gₜ]

/-- Where all claims are permitted, the authority is registered if there is a claim. -/
theorem authorized_iff {registry : AuthorityRegistry} {authority : String} {claims : List Claim}
    (h : ∀ claim ∈ claims, registry.checkPermission authority claim = .ok ()) :
    (authority ∈ registry.authorities ∧
        ∀ claim ∈ claims, registry.checkPermission authority claim = .ok ()) ↔
      (claims ≠ [] ∨ authority ∈ registry.authorities) := by
  rw [and_iff_left h]
  refine ⟨Or.inr, ?_⟩
  rintro (hne | hmem)
  · obtain ⟨claim, hclaim⟩ := List.exists_mem_of_ne_nil claims hne
    obtain ⟨a, hlookup, -⟩ := checkPermission_eq_ok.1 (h claim hclaim)
    exact HashMap.mem_of_lookup hlookup
  · exact hmem

/-- A successful `cmd_issue` found its input on the disk, and all its claims permitted. -/
theorem exists_admits_of_exec {C : Curve F G₁ G₂ Gₜ} {D : Codec} {data : Path} {args : IssueArgs}
    {fresh : Fresh F} {d : Disk} (h : (Fs.exec (cmdIssue C D data args fresh) d).1 = .ok ()) :
    ∃ input, Admits C D data args d input := by
  rw [exec_cmdIssue] at h
  cases hkey : issueOutcome C D data args fresh d with
  | error e =>
    rw [hkey, Cmd.andThen_error] at h
    cases h
  | ok key => exact admits_of_issueOutcome hkey

/-- **Issuing and permission**, in the library and on the command line: when a key is minted, the
authority is registered and may make every claim if and only if there is a claim or the authority is
registered. -/
theorem issue_authorized (C : Curve F G₁ G₂ Gₜ) (D : Codec) :
    (∀ (pp pp' : PublicParams G₁ G₂ Gₜ) (msk : MasterSecret F) (registry : AuthorityRegistry)
      (authority subject : String) (claims : List Claim) (audit : AuditLog) (rng : Rng F)
      (timestampUnix : UInt64) (es : List (Event FileOp.Reply)) (usk : UserSecretKey G₂),
      (issue D pp msk registry authority subject claims audit rng timestampUnix).Performs es
          (.ok usk, pp') →
        ((authority ∈ registry.authorities ∧
            ∀ claim ∈ claims, registry.checkPermission authority claim = .ok ()) ↔
          (claims ≠ [] ∨ authority ∈ registry.authorities))) ∧
    ∀ (data : Path) (args : IssueArgs) (fresh : Fresh F) (d : Disk),
      (Fs.exec (cmdIssue C D data args fresh) d).1 = .ok () →
        ∃ registry claims, registryOn D data d = .ok registry ∧
          parseClaims args.flags args.texts args.numerics = .ok claims ∧
          ((args.authority ∈ registry.authorities ∧
              ∀ claim ∈ claims, registry.checkPermission args.authority claim = .ok ()) ↔
            (claims ≠ [] ∨ args.authority ∈ registry.authorities)) := by
  constructor
  · intro pp pp' msk registry authority subject claims audit rng timestampUnix es usk h
    exact authorized_iff (permitted_of_issue h)
  · intro data args fresh d h
    obtain ⟨input, hadmits⟩ := exists_admits_of_exec h
    exact ⟨input.registry, input.claims, hadmits.registry, hadmits.claims,
      authorized_iff hadmits.permitted⟩

/-- The root authority may make every claim. -/
def rootRegistry : AuthorityRegistry := AuthorityRegistry.new.register "root" []

/-- The root authority issues an attribute to Alice in the library, and a second one on the command line. -/
theorem issue_authorized_root :
    (∃ es usk pp', (issue serdeJsonUnlimited (setup exponents exampleFresh.scalars).1.1 ⟨1, 1⟩ rootRegistry
        "root" "alice" [.flag "a"] (AuditLog.open (auditPath exampleData)) exampleFresh.scalars 0).Performs es
          (.ok usk, pp') ∧
      (("root" ∈ rootRegistry.authorities ∧
          ∀ claim ∈ [Claim.flag "a"], rootRegistry.checkPermission "root" claim = .ok ()) ↔
        ([Claim.flag "a"] ≠ [] ∨ "root" ∈ rootRegistry.authorities))) ∧
    ∃ registry claims,
      registryOn serdeJsonUnlimited exampleData (runAll exponents boxes serdeJsonUnlimited exampleCwd
        exampleData exampleRun emptyDisk) = .ok registry ∧
      parseClaims ["b"] [] [] = .ok claims ∧
      (("root" ∈ registry.authorities ∧
          ∀ claim ∈ claims, registry.checkPermission "root" claim = .ok ()) ↔
        (claims ≠ [] ∨ "root" ∈ registry.authorities)) := by
  have hpermitted : ∀ attr, ∀ claim ∈ [Claim.flag attr],
      rootRegistry.checkPermission "root" claim = .ok () := fun _ => List.forall_mem_singleton.2 rfl
  constructor
  · have hbeta : (⟨1, 1⟩ : MasterSecret Scalar).beta ≠ 0 := one_ne_zero (α := Scalar)
    obtain ⟨usk, pp', d, hrun⟩ := exists_run_issue serdeJsonUnlimited
      (setup exponents exampleFresh.scalars).1.1 hbeta "alice" (hpermitted "a")
      (AuditLog.open (auditPath exampleData)) exampleFresh.scalars 0 emptyDisk
    obtain ⟨es, hperforms, -⟩ := Prog.run_eq_iff.1 hrun
    exact ⟨es, usk, pp', hperforms,
      (issue_authorized exponents serdeJsonUnlimited).1 _ _ _ _ _ _ _ _ _ _ _ _ hperforms⟩
  · obtain ⟨w, h, -, ht, -, hbeta, hregistry, hrevocation⟩ := exists_represents_exampleRun
    have hrevoked : (w.revocationList exampleData).isUserRevoked "alice" = false := by
      rw [World.revocationList, hrevocation]
      rfl
    obtain ⟨hok, -⟩ := h.exec_issue exampleCwd readsBack_exponents hexReadsBack_serdeJsonUnlimited
      readsBack_serdeJsonUnlimited.shallow ht hbeta (issueToAlice "b") (by decide) hrevoked rfl
      (hregistry ▸ hpermitted "b") exampleFresh
    rw [exec_issue] at hok
    generalize runAll exponents boxes serdeJsonUnlimited exampleCwd exampleData exampleRun emptyDisk = d
      at hok ⊢
    exact (issue_authorized exponents serdeJsonUnlimited).2 exampleData (issueToAlice "b") exampleFresh d
      hok

/-- A request without a claim, in a name that is not registered. -/
def nobodyToEve : IssueArgs := ⟨"nobody", "eve", [], [], []⟩

/-- The disk after a setup. -/
def exampleStart : Disk :=
  (Fs.exec (cmdSetup exponents serdeJsonUnlimited exampleData exampleFresh) emptyDisk).2

theorem represents_exampleStart : Represents exponents serdeJsonUnlimited exampleData exampleStart
    (World.start exponents serdeJsonUnlimited exampleFresh) :=
  represents_cmdSetup exponents serdeJsonUnlimited (vacant_emptyDisk exampleData) exampleFresh

/-- **Nobody issues**: after a setup, before any authority is registered, a key is minted for Eve in a
name that is not registered, as the event says. -/
theorem exec_cmdIssue_nobody :
    registryOn serdeJsonUnlimited exampleData exampleStart = .ok AuthorityRegistry.new ∧
      "nobody" ∉ AuthorityRegistry.new.authorities ∧
      ∃ d, Fs.exec (cmdIssue exponents serdeJsonUnlimited exampleData nobodyToEve exampleFresh)
          exampleStart = (.ok (), d) ∧
        (d.files.lookup (keyFile exampleData "eve")).isSome ∧
        d.contents (auditPath exampleData) = exampleStart.contents (auditPath exampleData) ++
          AuditLog.line serdeJsonUnlimited
            (exampleFresh.event "nobody" "ISSUE_KEY" "eve" "attributes=") := by
  have hD := readsBack_serdeJsonUnlimited.shallow
  have h := represents_exampleStart
  refine ⟨h.registryOn_eq hD, AList.notMem_empty _, ?_⟩
  have hadmits : Admits exponents serdeJsonUnlimited exampleData nobodyToEve exampleStart
      ⟨_, _, _, _, [], .error "no key on file for user 'eve'; run `issue` first"⟩ :=
    ⟨h.setupOn_eq readsBack_exponents hexReadsBack_serdeJsonUnlimited hD, h.registryOn_eq hD,
      h.revocationOn_eq hD, rfl, rfl, List.forall_mem_nil _,
      congrArg Cmd.caught (h.userKeyOn_eq_err (by decide : '/' ∉ "eve".toList) rfl)⟩
  obtain ⟨key, hkey⟩ := exists_issueOutcome exampleFresh hadmits (one_ne_zero : (1 : Scalar) ≠ 0)
    fun usk husk => by cases husk
  have hflat : key.flatAttrs = [] := by
    rw [issueOutcome_eq hadmits] at hkey
    obtain ⟨-, -, -, hflat, -⟩ := mintKey_eq_ok hkey
    exact hflat
  rw [exec_cmdIssue, hkey, Cmd.andThen_ok]
  refine ⟨_, rfl, ?_, ?_⟩
  · have huser : nobodyToEve.user = "eve" := rfl
    rw [afterIssue, Disk.lookup_append_ne (by decide), huser, Disk.lookup_write_self, Option.isSome_some]
  · have hauthority : nobodyToEve.authority = "nobody" := rfl
    have huser : nobodyToEve.user = "eve" := rfl
    have hdetail : "attributes=" ++ ",".intercalate [] = "attributes=" := by decide
    rw [afterIssue, Disk.contents_append_self, issueEvent, hflat, hauthority, huser, hdetail,
      List.append_left_inj]
    rw [Disk.contents, Disk.contents, Disk.lookup_write_ne (by decide), Disk.files_createDirAll,
      Disk.lookup_write_ne (by decide)]

end SecureABE.Cli
