import SecureABE.Authorities.Issue
import SecureABE.Cli.Deployment
import SecureABE.Cli.Faults
import SecureABE.Core.Reloading
import SecureABE.Foundations.Flaky

/-!
# The attribute universe after a failure

`authorities::issue` registers the attributes of a claim before it looks at the next claim, and all of
them before it makes the key and records the event. `cmd_encrypt` saves the parameters with the leaves of
the policy before it reads the file. Neither takes a registration back, so after a failure the universe
is what it was exactly if what had been registered until then was known before (`unchanged_iff`).
-/

namespace SecureABE.Cli

open Rust SecureABE.Core SecureABE.Policy SecureABE.Revocation SecureABE.Authorities SecureABE.Audit
  SecureABE.Envelope SecureABE.Storage

variable {F G₁ G₂ Gₜ : Type} [Field F] [DecidableEq F] [AddCommGroup G₁] [Module F G₁]
  [AddCommGroup G₂] [Module F G₂] [AddCommGroup Gₜ] [Module F Gₜ]
variable (C : Curve F G₁ G₂ Gₜ) (A : Cipher) (D : Codec) (cwd data : Path)

/-- The attributes that are stored in the setup file. -/
def storedAttributes (d : Disk) : Outcome String (HashMap String (AttributeCommitment G₁ G₂)) := do
  let (pp, _) ← setupOn C D data d
  .ok pp.attributes

/-- With these faults to come, the setup and the revocation list are loaded, the policy parses, and the
save does not fail. -/
def GetsToSave (policy : String) (s : Disk × List (Option Fault)) (pp : PublicParams G₁ G₂ Gₜ)
    (rl : RevocationList) (tree : AccessTree) : Prop :=
  ∃ msk s₁ s₂, Fs.execFlaky (loadSetup C D data) s = (.ok (pp, msk), s₁) ∧
    Fs.execFlaky (loadRevocation D data) s₁ = (.ok rl, s₂) ∧ parse policy = .ok tree ∧
    s₂.2.head?.join = none

variable {C A D cwd data}

/-! ## Loading and saving -/

omit [DecidableEq F] in
/-- Parameters that are loaded belong to the master secret that comes with them. -/
theorem belongs_of_setupOn {d : Disk} {pp : PublicParams G₁ G₂ Gₜ} {msk : MasterSecret F}
    (h : setupOn C D data d = .ok (pp, msk)) : Belongs C pp msk := by
  obtain ⟨text, -, hload⟩ := bind_eq_ok.1 h
  exact belongs_of_setupBundleFromJson (Outcome.mapErr_eq_ok.1 hload)

/-- What is prepared from what was loaded. -/
def preparedOf (pp : PublicParams G₁ G₂ Gₜ) (msk : MasterSecret F) (rl : RevocationList)
    (tree : AccessTree) (fresh : Fresh F) : Prepared F G₁ G₂ Gₜ :=
  let tree := retagTree tree rl
  let (pp, rng) := registerLeaves tree.leaves pp fresh.scalars
  { pp, msk, tree, rng }

omit [DecidableEq F] in
theorem belongs_preparedOf {pp : PublicParams G₁ G₂ Gₜ} {msk : MasterSecret F} (h : Belongs C pp msk)
    (rl : RevocationList) (tree : AccessTree) (fresh : Fresh F) :
    Belongs C (preparedOf pp msk rl tree fresh).pp msk := by
  obtain ⟨calls, -, hcalls⟩ := exists_registerAll_registerLeaves (retagTree tree rl).leaves pp
    fresh.scalars
  change Belongs C (registerLeaves (retagTree tree rl).leaves pp fresh.scalars).1 msk
  rw [hcalls]
  exact h.registerAll calls

omit [DecidableEq F] in
theorem execFlaky_prepareEncrypt_eq_ok {policy : String} {fresh : Fresh F}
    {s s' : Disk × List (Option Fault)} {prepared : Prepared F G₁ G₂ Gₜ} :
    Fs.execFlaky (prepareEncrypt C D data policy fresh) s = (.ok prepared, s') ↔
      ∃ pp msk s₁ rl tree, Fs.execFlaky (loadSetup C D data) s = (.ok (pp, msk), s₁) ∧
        Fs.execFlaky (loadRevocation D data) s₁ = (.ok rl, s') ∧ parse policy = .ok tree ∧
        prepared = preparedOf pp msk rl tree fresh := by
  constructor
  · intro h
    obtain ⟨⟨pp, msk⟩, s₁, hsetup, h⟩ := Fs.execFlaky_bind_eq_ok.1 h
    obtain ⟨rl, s₂, hlist, h⟩ := Fs.execFlaky_bind_eq_ok.1 h
    obtain ⟨tree, s₃, hparse, h⟩ := Fs.execFlaky_bind_eq_ok.1 h
    obtain ⟨htree, rfl⟩ := Prod.mk.inj hparse
    obtain ⟨hprepared, rfl⟩ := Prod.mk.inj h
    exact ⟨pp, msk, s₁, rl, tree, hsetup, hlist, Outcome.ofExcept_eq_ok.1 htree,
      (Except.ok.inj hprepared).symm⟩
  · rintro ⟨pp, msk, s₁, rl, tree, hsetup, hlist, hparse, rfl⟩
    refine Fs.execFlaky_bind_eq_ok.2 ⟨_, s₁, hsetup, Fs.execFlaky_bind_eq_ok.2 ⟨rl, s', hlist, ?_⟩⟩
    rw [hparse]
    rfl

/-! ## The command after its save -/

variable (C A cwd data) in
omit [DecidableEq F] in
/-- What comes after the save leaves the setup file alone. -/
theorem spares_setup_afterSave (hX : D.HexReadsBack) (file policy : String) (fresh : Fresh F)
    (prepared : Prepared F G₁ G₂ Gₜ) :
    Cmd.Only (FileOp.Spares (setupPath data)) (do
      let plaintext ← Cmd.mapErr (fun _ => "reading " ++ file) (Fs.read (cwd.join file))
      let (package, _) ← Cmd.ofOutcome (Outcome.mapErr EnvelopeError.toText
        (Envelope.seal C A D prepared.pp plaintext prepared.tree policy fresh.dek fresh.fileNonce
          fresh.wrapNonce prepared.rng))
      let store ← Cmd.mapErr StorageError.toText (PackageStore.open (packagesDir data))
      let filename := (Path.fileName file).getD "document"
      let id ← Cmd.mapErr StorageError.toText (store.put C D filename package fresh.stamp)
      recordEvent D data (fresh.event "system" "ENCRYPT" id
        ("file=" ++ filename ++ " policy=" ++ policy))) fun _ => True := by
  have hid := isName_newId hX fresh.stamp
  have haudit : setupPath data ≠ auditPath data := by
    rw [setupPath_eq, auditPath_eq, Ne, File.path_inj]
    simp
  have hopen : Cmd.Only (FileOp.Spares (setupPath data)) (PackageStore.open (packagesDir data))
      fun store => store = packageStore data :=
    ((Fs.single_createDirAll _).mapErr.only FileOp.spares_createDirAll).bind fun _ _ => Cmd.only_pure rfl
  apply (Fs.onlyReads_read _).spares.mapErr.bind
  intro plaintext _
  refine (Cmd.only_outcome _).bind fun sealed _ => hopen.mapErr.bind ?_
  rintro store rfl
  have hput : Cmd.Only (FileOp.Spares (setupPath data))
      ((packageStore data).put C D ((Path.fileName file).getD "document") sealed.1 fresh.stamp)
      fun _ => True := by
    apply ((Fs.single_createDirAll _).mapErr.only FileOp.spares_createDirAll).bind
    intro _ _
    refine ((Fs.single_write _ _).mapErr.only (FileOp.spares_write ?_ _)).bind fun _ _ => ?_
    · rw [setupPath_eq, sealedPath_eq hid, Ne, File.path_inj]
      simp
    refine ((Fs.single_write _ _).mapErr.only (FileOp.spares_write ?_ _)).bind fun _ _ => ?_
    · rw [setupPath_eq, wrappedKeyPath_eq hid, Ne, File.path_inj]
      simp
    refine ((Fs.single_write _ _).mapErr.only (FileOp.spares_write ?_ _)).bind fun _ _ => ?_
    · rw [setupPath_eq, manifestPath_eq hid, Ne, File.path_inj]
      simp
    exact Cmd.only_pure trivial
  apply hput.mapErr.bind
  intro id _
  apply Cmd.Only.mapErr
  apply ((Fs.single_openAppend _).mapErr.only (FileOp.spares_openAppend haudit)).bind
  intro _ _
  apply ((Fs.single_append _ _).mapErr.only (FileOp.spares_append haudit _)).bind
  intro _ _
  exact (Fs.single_append _ _).mapErr.only (FileOp.spares_append haudit _)

/-! ## Failures -/

omit [DecidableEq F] [AddCommGroup Gₜ] [Module F Gₜ] in
theorem attributes_preparedOf_eq_iff {pp : PublicParams G₁ G₂ Gₜ} {msk : MasterSecret F}
    {rl : RevocationList} {tree : AccessTree} {fresh : Fresh F} :
    (preparedOf pp msk rl tree fresh).pp.attributes = pp.attributes ↔
      ∀ leaf ∈ tree.leaves, rl.tag leaf ∈ pp.attributes := by
  obtain ⟨calls, hcalls, hpp⟩ := exists_registerAll_registerLeaves (retagTree tree rl).leaves pp
    fresh.scalars
  change (registerLeaves (retagTree tree rl).leaves pp fresh.scalars).1.attributes = _ ↔ _
  rw [hpp, attributes_registerAll_eq_iff, hcalls, leaves_retagTree, List.forall_mem_map]

section Encrypting

variable (hC : C.ReadsBack) (hX : D.HexReadsBack) (hD : D.ReadsShallow)
include hC hX hD

omit [DecidableEq F] in
/-- After a failure the stored attributes are what they were exactly if the command did not get to its
save, or all leaves were registered. -/
theorem storedAttributes_cmdEncrypt_iff {file policy : String} {fresh : Fresh F}
    {s s' : Disk × List (Option Fault)} {e : Failure String}
    (h : Fs.execFlaky (cmdEncrypt C A D cwd data file policy fresh) s = (.error e, s')) :
    storedAttributes C D data s'.1 = storedAttributes C D data s.1 ↔
      ∀ pp rl tree, GetsToSave C D data policy s pp rl tree →
        ∀ leaf ∈ tree.leaves, rl.tag leaf ∈ pp.attributes := by
  obtain ⟨d, φs⟩ := s
  rw [cmdEncrypt, Fs.execFlaky_bind] at h
  rcases hprepare : Fs.execFlaky (prepareEncrypt C D data policy fresh) (d, φs) with ⟨e' | prepared, s₂⟩
  · -- nothing is prepared
    rw [hprepare, Cmd.andThen_error] at h
    obtain ⟨-, rfl⟩ := Prod.mk.inj h
    have hdisk := (((onlyReads_prepareEncrypt C D data policy fresh).peeks d).of_execFlaky hprepare).1
    rw [hdisk]
    apply iff_of_true rfl
    rintro pp rl tree ⟨msk, s₁, s₂', hsetup, hlist, hparse, -⟩
    rw [execFlaky_prepareEncrypt_eq_ok.2 ⟨pp, msk, s₁, rl, tree, hsetup, hlist, hparse, rfl⟩] at hprepare
    cases hprepare
  obtain ⟨pp, msk, s₁, rl, tree, hsetup, hlist, hparse, rfl⟩ := execFlaky_prepareEncrypt_eq_ok.1 hprepare
  have hdisk := (((onlyReads_prepareEncrypt C D data policy fresh).peeks d).of_execFlaky hprepare).1
  obtain ⟨d₂, φs₂⟩ := s₂
  obtain rfl : d₂ = d := hdisk
  have hstored := ((peeks_loadSetup C D data d₂).of_execFlaky hsetup).2 _ rfl
  have hsame : ∀ pp' rl' tree', GetsToSave C D data policy (d₂, φs) pp' rl' tree' →
      pp' = pp ∧ rl' = rl ∧ tree' = tree ∧ φs₂.head?.join = none := by
    rintro pp' rl' tree' ⟨msk', s₁', s₂', hsetup', hlist', hparse', hsave⟩
    obtain ⟨hpp, rfl⟩ := Prod.mk.inj (hsetup'.symm.trans hsetup)
    obtain ⟨hrl, rfl⟩ := Prod.mk.inj (hlist'.symm.trans hlist)
    exact ⟨(Prod.mk.inj (Except.ok.inj hpp)).1, Except.ok.inj hrl,
      Except.ok.inj (hparse'.symm.trans hparse), hsave⟩
  rw [hprepare, Cmd.andThen_ok, Fs.execFlaky_bind, saveSetup, Fs.execFlaky_mapErr] at h
  cases hφ : φs₂.head?.join with
  | some φ =>
    -- the save fails
    rw [Fs.execFlaky_write_of_some hφ] at h
    obtain ⟨-, rfl⟩ := Prod.mk.inj h
    apply iff_of_true rfl
    intro pp' rl' tree' hgets
    obtain ⟨-, -, -, hnone⟩ := hsame pp' rl' tree' hgets
    rw [hφ] at hnone
    cases hnone
  | none =>
    rw [Fs.execFlaky_write_of_none hφ, Outcome.mapErr_ok, Cmd.andThen_ok] at h
    have hlookup := Fs.lookup_execFlaky
      (spares_setup_afterSave C A cwd data hX file policy fresh (preparedOf pp msk rl tree fresh))
      (d₂.write (setupPath data) (setupBytes C D (preparedOf pp msk rl tree fresh).pp msk), φs₂.tail)
    rw [show Fs.execFlaky _ (d₂.write (setupPath data) (setupBytes C D (preparedOf pp msk rl tree fresh).pp msk),
      φs₂.tail) = (.error e, s') from h, Disk.lookup_write_self] at hlookup
    have hsaved := belongs_preparedOf (belongs_of_setupOn hstored) rl tree fresh
    unfold storedAttributes
    rw [hstored, setupOn_of_lookup hC hX hD hsaved hlookup]
    change (Except.ok (preparedOf pp msk rl tree fresh).pp.attributes : Outcome String _) =
      .ok pp.attributes ↔ _
    rw [Except.ok.injEq, attributes_preparedOf_eq_iff]
    constructor
    · intro hleaves pp' rl' tree' hgets
      obtain ⟨rfl, rfl, rfl, -⟩ := hsame pp' rl' tree' hgets
      exact hleaves
    · intro hall
      exact hall pp rl tree ⟨msk, s₁, _, hsetup, hlist, hparse, hφ⟩

/-- **What a failure leaves of the attribute universe.** When `issue` returns an error, the parameters have
the attributes that they had exactly if those of all claims before the refused one were registered
already; when `cmd_encrypt` does, the setup file has, exactly if the command failed at or before its save
or all tagged leaves of the policy were registered already. Accesses may fail. -/
theorem unchanged_iff :
    (∀ (pp pp' : PublicParams G₁ G₂ Gₜ) (msk : MasterSecret F) (registry : AuthorityRegistry)
      (authority subject : String) (claims : List Claim) (audit : AuditLog) (rng : Rng F)
      (timestampUnix : UInt64) (es : List (Event FileOp.Reply)) (e : Failure AuthorityError),
      (issue D pp msk registry authority subject claims audit rng timestampUnix).Performs es
        (.error e, pp') →
      (pp'.attributes = pp.attributes ↔
        ∀ a ∈ (permittedPrefix registry authority claims).flatMap Claim.resolve, a ∈ pp.attributes)) ∧
    ∀ (file policy : String) (fresh : Fresh F) (s s' : Disk × List (Option Fault)) (e : Failure String),
      Fs.execFlaky (cmdEncrypt C A D cwd data file policy fresh) s = (.error e, s') →
      (storedAttributes C D data s'.1 = storedAttributes C D data s.1 ↔
        ∀ pp rl tree, GetsToSave C D data policy s pp rl tree →
          ∀ leaf ∈ tree.leaves, rl.tag leaf ∈ pp.attributes) := by
  constructor
  · intro pp pp' msk registry authority subject claims audit rng timestampUnix es e h
    obtain ⟨calls, hcalls, hpp⟩ := exists_registerAll_issueClaims registry authority claims
      ({ pp, flatAttrs := [], rng } : IssueState F G₁ G₂ Gₜ)
    rw [pp_of_issue h, hpp, attributes_registerAll_eq_iff, hcalls]
  · intro file policy fresh s s' e h
    exact storedAttributes_cmdEncrypt_iff hC hX hD h

end Encrypting

/-! ## An example -/

/-- An authority that may issue the attribute `a` only. -/
def exampleRegistry : AuthorityRegistry := AuthorityRegistry.new.register "root" ["a"]

theorem unchanged_iff_exponents :
    (∀ (pp pp' : PublicParams Scalar Scalar Scalar) (msk : MasterSecret Scalar)
      (registry : AuthorityRegistry) (authority subject : String) (claims : List Claim)
      (audit : AuditLog) (rng : Rng Scalar) (timestampUnix : UInt64) (es : List (Event FileOp.Reply))
      (e : Failure AuthorityError),
      (issue serdeJson pp msk registry authority subject claims audit rng timestampUnix).Performs es
        (.error e, pp') →
      (pp'.attributes = pp.attributes ↔
        ∀ a ∈ (permittedPrefix registry authority claims).flatMap Claim.resolve, a ∈ pp.attributes)) ∧
    ∀ (file policy : String) (fresh : Fresh Scalar) (s s' : Disk × List (Option Fault))
      (e : Failure String),
      Fs.execFlaky (cmdEncrypt exponents boxes serdeJson ⟨["home"]⟩ ⟨["data"]⟩ file policy fresh) s =
        (.error e, s') →
      (storedAttributes exponents serdeJson ⟨["data"]⟩ s'.1 =
          storedAttributes exponents serdeJson ⟨["data"]⟩ s.1 ↔
        ∀ pp rl tree, GetsToSave exponents serdeJson ⟨["data"]⟩ policy s pp rl tree →
          ∀ leaf ∈ tree.leaves, rl.tag leaf ∈ pp.attributes) :=
  unchanged_iff readsBack_exponents (hexReadsBack_codecWith _) readsBackShallow_serdeJson.shallow

/-- The first claim is permitted, and its attribute is registered; the second is refused. -/
theorem not_unchanged_exampleRegistry :
    ¬ ∀ (pp pp' : PublicParams Scalar Scalar Scalar) (msk : MasterSecret Scalar)
      (registry : AuthorityRegistry) (authority subject : String) (claims : List Claim)
      (audit : AuditLog) (rng : Rng Scalar) (timestampUnix : UInt64) (es : List (Event FileOp.Reply))
      (e : Failure AuthorityError),
      (issue serdeJson pp msk registry authority subject claims audit rng timestampUnix).Performs es
        (.error e, pp') → pp'.attributes = pp.attributes := by
  intro h
  let rng : Rng Scalar := fun _ => 1
  let pp : PublicParams Scalar Scalar Scalar := (setup exponents rng).1.1
  have hrefused : (issue serdeJson pp ⟨1, 1⟩ exampleRegistry "root" "alice" [.flag "a", .flag "b"]
      ⟨⟨["audit.log"]⟩⟩ rng 0).Performs []
        (.error (.error (.notPermitted "root" "b")), (registerAttribute pp "a" rng).1) :=
    Prog.Performs.pure _
  have hsame := h _ _ _ _ _ _ _ _ _ _ _ _ hrefused
  have hnew : "a" ∈ (registerAttribute pp "a" rng).1.attributes :=
    (mem_registerAttribute pp "a" rng "a").2 (Or.inl rfl)
  rw [hsame] at hnew
  exact AList.notMem_empty "a" hnew

end SecureABE.Cli
