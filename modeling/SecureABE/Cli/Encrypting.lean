import SecureABE.Cli.Effects
import SecureABE.Envelope.Opening

/-!
# What encrypting guarantees

A successful `cmd_encrypt` registers the tagged leaves of its policy and seals the file it reads under
the tagged tree (`encryptOutcome_eq_ok`, `sealOutcome_eq_ok`). `exists_encryptOutcome` and
`exists_sealOutcome` say when it succeeds.
-/

namespace SecureABE.Cli

open Rust SecureABE.Core SecureABE.Policy SecureABE.Revocation SecureABE.Envelope

variable {F G₁ G₂ Gₜ : Type} [Field F] [DecidableEq F] [AddCommGroup G₁] [Module F G₁]
  [AddCommGroup G₂] [Module F G₂] [AddCommGroup Gₜ] [Module F Gₜ]
variable {C : Curve F G₁ G₂ Gₜ} {A : Cipher} {D : Codec} {cwd data : Path}

omit [DecidableEq F] [AddCommGroup Gₜ] [Module F Gₜ] in
/-- The loop over the leaves registers them. -/
theorem exists_registerAll_registerLeaves (leaves : List String) (pp : PublicParams G₁ G₂ Gₜ)
    (rng : Rng F) : ∃ calls : List (String × Rng F), calls.map Prod.fst = leaves ∧
      (registerLeaves leaves pp rng).1 = registerAll pp calls := by
  induction leaves generalizing pp rng with
  | nil => exact ⟨[], rfl, rfl⟩
  | cons leaf leaves ih =>
    obtain ⟨calls, hcalls, hpp⟩ :=
      ih (registerAttribute pp leaf rng).1 (registerAttribute pp leaf rng).2
    exact ⟨(leaf, rng) :: calls, by rw [List.map_cons, hcalls], hpp⟩

omit [DecidableEq F] [AddCommGroup Gₜ] [Module F Gₜ] in
/-- A constant generator stays as it is. -/
theorem rng_registerLeaves (leaves : List String) (pp : PublicParams G₁ G₂ Gₜ) {rng : Rng F} {x : F}
    (hrng : rng = fun _ => x) : (registerLeaves leaves pp rng).2 = fun _ => x := by
  induction leaves generalizing pp rng with
  | nil => exact hrng
  | cons leaf leaves ih =>
    exact ih (registerAttribute pp leaf rng).1 (registerAttribute_const pp leaf hrng)

omit [DecidableEq F] in
/-- **What is prepared**: the tagged tree of the policy, and the parameters with its leaves. -/
theorem encryptOutcome_eq_ok {policy : String} {fresh : Fresh F} {d : Disk}
    {prepared : Prepared F G₁ G₂ Gₜ} (h : encryptOutcome C D data policy fresh d = .ok prepared) :
    ∃ pp revocation rawTree, setupOn C D data d = .ok (pp, prepared.msk) ∧
      revocationOn D data d = .ok revocation ∧ parse policy = .ok rawTree ∧
      prepared.tree = retagTree rawTree revocation ∧
      ∃ calls : List (String × Rng F), calls.map Prod.fst = prepared.tree.leaves ∧
        prepared.pp = registerAll pp calls := by
  obtain ⟨⟨pp, msk⟩, hsetup, h⟩ := bind_eq_ok.1 h
  obtain ⟨revocation, hrevocation, h⟩ := bind_eq_ok.1 h
  obtain ⟨rawTree, hparse, h⟩ := bind_eq_ok.1 h
  obtain rfl := Except.ok.inj h
  exact ⟨pp, revocation, rawTree, hsetup, hrevocation, Outcome.ofExcept_eq_ok.1 hparse, rfl,
    exists_registerAll_registerLeaves _ _ _⟩

omit [DecidableEq F] in
theorem rng_of_encryptOutcome_eq_ok {policy : String} {fresh : Fresh F} {d : Disk}
    {prepared : Prepared F G₁ G₂ Gₜ} (h : encryptOutcome C D data policy fresh d = .ok prepared)
    {x : F} (hfresh : fresh.scalars = fun _ => x) : prepared.rng = fun _ => x := by
  obtain ⟨⟨pp, msk⟩, -, h⟩ := bind_eq_ok.1 h
  obtain ⟨revocation, -, h⟩ := bind_eq_ok.1 h
  obtain ⟨rawTree, -, h⟩ := bind_eq_ok.1 h
  obtain rfl := Except.ok.inj h
  exact rng_registerLeaves _ _ hfresh

omit [DecidableEq F] in
/-- Preparing succeeds on every policy that parses. -/
theorem exists_encryptOutcome {policy : String} (fresh : Fresh F) {d : Disk}
    {pp : PublicParams G₁ G₂ Gₜ} {msk : MasterSecret F} {revocation : RevocationList}
    {rawTree : AccessTree} (hsetup : setupOn C D data d = .ok (pp, msk))
    (hrevocation : revocationOn D data d = .ok revocation) (hparse : parse policy = .ok rawTree) :
    ∃ prepared, encryptOutcome C D data policy fresh d = .ok prepared := by
  rw [encryptOutcome, hsetup, hrevocation, hparse]
  exact ⟨_, rfl⟩

/-- The file that `cmd_encrypt` reads. The parameters are saved before. -/
def inputOn (C : Curve F G₁ G₂ Gₜ) (D : Codec) (cwd data : Path) (file policy : String)
    (fresh : Fresh F) (d : Disk) : Outcome String Bytes := do
  let prepared ← encryptOutcome C D data policy fresh d
  Outcome.mapErr (fun _ => "reading " ++ file) (Fs.replied
    ((d.write (setupPath data) (setupBytes C D prepared.pp prepared.msk)).read (cwd.join file)))

omit [DecidableEq F]

/-- **What is sealed**: the file, under the tree. -/
theorem sealOutcome_eq_ok {file policy : String} {fresh : Fresh F} {prepared : Prepared F G₁ G₂ Gₜ}
    {d : Disk} {package : EncryptedPackage G₁}
    (h : sealOutcome C A D cwd file policy fresh prepared d = .ok package) :
    ∃ plaintext, d.read (cwd.join file) = .ok plaintext ∧
      Seals C A D prepared.pp prepared.tree plaintext package := by
  obtain ⟨plaintext, hread, h⟩ := bind_eq_ok.1 h
  obtain ⟨⟨package', rng⟩, hseal, h⟩ := bind_eq_ok.1 h
  obtain rfl := Except.ok.inj h
  exact ⟨plaintext, Fs.replied_eq_ok.1 (Outcome.mapErr_eq_ok.1 hread),
    seals_of_seal_eq_ok (Outcome.mapErr_eq_ok.1 hseal)⟩

/-- The scalar that is shared is the first one that is drawn. -/
theorem encrypted_of_sealOutcome_eq_ok {file policy : String} {fresh : Fresh F}
    {prepared : Prepared F G₁ G₂ Gₜ} {d : Disk} {package : EncryptedPackage G₁}
    (h : sealOutcome C A D cwd file policy fresh prepared d = .ok package) :
    Encrypted C A D prepared.pp fresh.dek prepared.tree (prepared.rng 0) (prepared.rng.drop 1)
      package.keyCiphertext := by
  obtain ⟨plaintext, -, h⟩ := bind_eq_ok.1 h
  obtain ⟨⟨package', rng⟩, hseal, h⟩ := bind_eq_ok.1 h
  obtain rfl := Except.ok.inj h
  exact encrypted_of_eq_ok (of_seal_eq_ok C A D (Outcome.mapErr_eq_ok.1 hseal)).2.2.2

/-- Sealing succeeds on every file that can be read. -/
theorem exists_sealOutcome (hA : A.Correct) {file : String} (policy : String) (fresh : Fresh F)
    {prepared : Prepared F G₁ G₂ Gₜ} {d : Disk} {plaintext : Bytes}
    (hread : d.read (cwd.join file) = .ok plaintext)
    (hleaves : ∀ a ∈ prepared.tree.leaves, a ∈ prepared.pp.attributes) :
    ∃ package, sealOutcome C A D cwd file policy fresh prepared d = .ok package := by
  obtain ⟨package, rng, hseal⟩ := exists_seal C A D hA plaintext hleaves policy fresh.dek
    fresh.fileNonce fresh.wrapNonce prepared.rng
  refine ⟨package, ?_⟩
  simp only [sealOutcome, hread, Fs.replied_eq_ok.2 rfl, Outcome.mapErr_ok, ok_bind, hseal]

end SecureABE.Cli
