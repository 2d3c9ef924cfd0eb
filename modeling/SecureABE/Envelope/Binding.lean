import SecureABE.Core.Correctness
import SecureABE.Envelope.Sealing

/-!
# Policy metadata is bound to the ciphertext

The associated data of the DEK wrap determines the access tree (`dekWrapAad_injective`), the one of the
document determines the policy summary (`fileAad_injective`), and the two differ in their labels
(`dekWrapAad_ne_fileAad`). A package whose tree or summary was exchanged is hence not opened by any key,
whatever the rest of it was changed to (`open_altered`): an exchanged tree may lead recombination to any
blinding value, or to none, but the symmetric decryption that follows has other associated data than
the encryption had.
-/

namespace SecureABE.Envelope

open Rust SecureABE.Core SecureABE.Policy

variable {F G₁ G₂ Gₜ : Type} [Field F] [DecidableEq F] [AddCommGroup G₁] [Module F G₁]
  [AddCommGroup G₂] [Module F G₂] [AddCommGroup Gₜ] [Module F Gₜ]
variable {C : Curve F G₁ G₂ Gₜ} {A : Cipher} {D : Codec}

/-! ## Associated data -/

theorem dekWrapAad_injective (hD : D.PrintsCompact) : Function.Injective (dekWrapAad D) := by
  intro tree tree' h
  have hbytes : D.toVec tree.toJson = D.toVec tree'.toJson := List.append_cancel_left (Except.ok.inj h)
  exact AccessTree.toJson_injective (hD.toVec_injective hbytes)

theorem fileAad_injective : Function.Injective fileAad := fun _ _ h =>
  utf8_injective (List.append_cancel_left h)

/-- The labels of the two kinds differ in their twelfth byte. -/
theorem dekWrapAad_ne_fileAad (tree : AccessTree) (policySummary : String) :
    dekWrapAad D tree ≠ .ok (fileAad policySummary) := by
  intro h
  have hbyte := congrArg (fun b : Bytes => b[11]?) (Except.ok.inj h)
  rw [fileAad, List.getElem?_append_left (by decide), List.getElem?_append_left (by decide)] at hbyte
  exact absurd hbyte (by decide)

/-! ## Altered packages -/

/-- The DEK of a ciphertext of `encrypt_key` is not unwrapped under another tree, whatever else was
changed besides the wrapped bytes. -/
theorem decryptKey_altered {n : ℕ} (hF : IndicesDistinct F n) (hA : A.Binding) (hD : D.PrintsCompact)
    {pp : PublicParams G₁ G₂ Gₜ} {dek : ByteArr 32} {tree : AccessTree} {s : F} {rng : Rng F}
    {ct ct' : AbeCiphertext G₁} (hct : Encrypted C A D pp dek tree s rng ct)
    (hlen : ct'.tree.ChildrenLt n) (htree : ct'.tree ≠ ct.tree)
    (hbytes : ct'.wrappedKey.ciphertext = ct.wrappedKey.ciphertext) (pp' : PublicParams G₁ G₂ Gₜ)
    (usk : UserSecretKey G₂) :
    decryptKey C A D pp' usk ct' = Outcome.err .policyNotSatisfied := by
  obtain ⟨aad, haad, hwrap⟩ := hct.wrappedKey
  rw [← hbytes] at hwrap
  -- recombination ends, with some value or with none
  have hrec := recombine_eq (ε := AbeError) hF hlen (leafResultsOf C usk ct'.leaves) []
  rw [decryptKey, recoverBlinding, hrec]
  cases recombined F ct'.tree (leafResultsOf C usk ct'.leaves) [] with
  | none => rfl
  | some fRoot =>
    have hne : DEK_WRAP_AAD_DOMAIN ++ D.toVec ct'.tree.toJson ≠ aad := by
      intro heq
      refine htree (hct.tree_eq ▸ dekWrapAad_injective hD ?_)
      rw [haad, ← heq, dekWrapAad]
    have hnone := hA.decrypt_eq_none _ _ _ _ _ hwrap (kdf C A (C.pairing ct'.c usk.d - fRoot))
      ct'.wrappedKey.nonce (DEK_WRAP_AAD_DOMAIN ++ D.toVec ct'.tree.toJson)
      (fun h => hne (Prod.mk.inj (Prod.mk.inj h).2).2)
    simp only [Outcome.okOr_some, ok_bind, dekWrapAad, hnone]
    rfl

/-- Decryption ends with a value or an error for every ciphertext. -/
theorem decryptKey_ok_or_err (C : Curve F G₁ G₂ Gₜ) (A : Cipher) (D : Codec) {n : ℕ}
    (hF : IndicesDistinct F n) (pp : PublicParams G₁ G₂ Gₜ) {ct : AbeCiphertext G₁}
    (hlen : ct.tree.ChildrenLt n) (usk : UserSecretKey G₂) :
    (∃ dek, decryptKey C A D pp usk ct = .ok dek) ∨ ∃ e, decryptKey C A D pp usk ct = Outcome.err e := by
  have hrec := recombine_eq (ε := AbeError) hF hlen (leafResultsOf C usk ct.leaves) []
  rw [decryptKey, recoverBlinding, hrec]
  cases recombined F ct.tree (leafResultsOf C usk ct.leaves) [] with
  | none => exact Or.inr ⟨_, rfl⟩
  | some fRoot =>
    simp only [Outcome.okOr_some, ok_bind, dekWrapAad]
    cases A.decrypt (kdf C A (C.pairing ct.c usk.d - fRoot)) ct.wrappedKey.nonce ct.wrappedKey.ciphertext
        (DEK_WRAP_AAD_DOMAIN ++ D.toVec ct.tree.toJson) with
    | none => exact Or.inr ⟨_, rfl⟩
    | some plaintext =>
      rw [Outcome.okOr_some, ok_bind]
      cases ByteArr.ofBytes? 32 plaintext with
      | none => exact Or.inr ⟨_, rfl⟩
      | some dek => exact Or.inl ⟨dek, rfl⟩

section Altered

variable {p : ℕ} [CharP F p] (hp : 2 ^ 64 < p) (hA : A.Binding) (hD : D.PrintsCompact)
  {pp : PublicParams G₁ G₂ Gₜ} {plaintext : Bytes} {tree : AccessTree} {policySummary : String}
  {dek : ByteArr 32} {fileNonce wrapNonce : ByteArr 12} {rng rng' : Rng F} {package : EncryptedPackage G₁}
  (hseal : «seal» C A D pp plaintext tree policySummary dek fileNonce wrapNonce rng =
    .ok (package, rng'))
include hp hA hD hseal

/-- What has another tree or another summary is not opened. -/
theorem open_eq_err_of_altered {altered : EncryptedPackage G₁}
    (hlen : altered.keyCiphertext.tree.ChildrenLt (2 ^ 64))
    (hchanged : altered.keyCiphertext.tree ≠ package.keyCiphertext.tree ∨
      altered.sealedDoc.policySummary ≠ package.sealedDoc.policySummary)
    (hwrapped : altered.keyCiphertext.wrappedKey.ciphertext = package.keyCiphertext.wrappedKey.ciphertext)
    (hfile : altered.sealedDoc.fileCiphertext = package.sealedDoc.fileCiphertext)
    (pp' : PublicParams G₁ G₂ Gₜ) (usk : UserSecretKey G₂) :
    ∃ e, «open» C A D pp' usk altered = Outcome.err e := by
  have hF : IndicesDistinct F (2 ^ 64) := IndicesDistinct.of_charP hp.le
  obtain ⟨-, hsummary, hplain, hkey⟩ := of_seal_eq_ok C A D hseal
  by_cases htree : altered.keyCiphertext.tree = package.keyCiphertext.tree
  · -- the summary was exchanged; the DEK, if there is one, comes with other associated data
    rw [«open»]
    obtain ⟨dek', hdek⟩ | ⟨e, herr⟩ := decryptKey_ok_or_err C A D hF pp' hlen usk
    · rw [hdek, Outcome.mapErr_ok, ok_bind]
      have hne : fileAad altered.sealedDoc.policySummary ≠ fileAad policySummary := fun heq =>
        (hchanged.resolve_left fun h => h htree) (by rw [hsummary, fileAad_injective heq])
      rw [← hfile] at hplain
      have hnone := hA.decrypt_eq_none _ _ _ _ _ hplain dek' altered.sealedDoc.fileNonce
        (fileAad altered.sealedDoc.policySummary) (fun h => hne (Prod.mk.inj (Prod.mk.inj h).2).2)
      exact ⟨.fileCrypto "aead::Error", by simp only [hnone, Outcome.okOr_none]⟩
    · exact ⟨.keyWrap e, by rw [herr, Outcome.mapErr_err]; rfl⟩
  · have herr := decryptKey_altered hF hA hD (encrypted_of_eq_ok hkey) hlen htree hwrapped pp' usk
    exact ⟨.keyWrap .policyNotSatisfied, by rw [«open», herr, Outcome.mapErr_err]; rfl⟩

/-- What is opened has the summary that was sealed. -/
theorem policySummary_of_open_eq_ok {altered : EncryptedPackage G₁}
    (hlen : altered.keyCiphertext.tree.ChildrenLt (2 ^ 64))
    (hwrapped : altered.keyCiphertext.wrappedKey.ciphertext = package.keyCiphertext.wrappedKey.ciphertext)
    (hfile : altered.sealedDoc.fileCiphertext = package.sealedDoc.fileCiphertext)
    {pp' : PublicParams G₁ G₂ Gₜ} {usk : UserSecretKey G₂} {opened : Bytes}
    (hopen : «open» C A D pp' usk altered = .ok opened) :
    altered.sealedDoc.policySummary = policySummary := by
  obtain ⟨-, hsummary, -, -⟩ := of_seal_eq_ok C A D hseal
  by_contra hne
  obtain ⟨e, herr⟩ := open_eq_err_of_altered hp hA hD hseal hlen (Or.inr (hsummary ▸ hne)) hwrapped hfile
    pp' usk
  rw [herr] at hopen
  cases hopen

end Altered

/-- **A package with another tree or another summary is not opened by any key**, if the bytes of the
two symmetric encryptions were kept; the other parts may have been changed in any way. The bound on the
children of a gate is the one of a `Vec`. -/
theorem open_altered {p : ℕ} [CharP F p] (hp : 2 ^ 64 < p) (hA : A.Binding) (hD : D.PrintsCompact)
    {pp : PublicParams G₁ G₂ Gₜ} {plaintext : Bytes} {tree : AccessTree} {policySummary : String}
    {dek : ByteArr 32} {fileNonce wrapNonce : ByteArr 12} {rng rng' : Rng F}
    {package : EncryptedPackage G₁}
    (hseal : «seal» C A D pp plaintext tree policySummary dek fileNonce wrapNonce rng =
      .ok (package, rng')) :
    (∀ altered : EncryptedPackage G₁, altered.keyCiphertext.tree.ChildrenLt (2 ^ 64) →
      altered.keyCiphertext.tree ≠ package.keyCiphertext.tree ∨
        altered.sealedDoc.policySummary ≠ package.sealedDoc.policySummary →
      altered.keyCiphertext.wrappedKey.ciphertext = package.keyCiphertext.wrappedKey.ciphertext →
      altered.sealedDoc.fileCiphertext = package.sealedDoc.fileCiphertext →
      ∀ (pp' : PublicParams G₁ G₂ Gₜ) (usk : UserSecretKey G₂),
        ∃ e, «open» C A D pp' usk altered = Outcome.err e) ∧
    Function.Injective (dekWrapAad D) ∧ Function.Injective fileAad ∧
    ∀ tree policySummary, dekWrapAad D tree ≠ .ok (fileAad policySummary) := by
  refine ⟨?_, dekWrapAad_injective hD, fileAad_injective, dekWrapAad_ne_fileAad⟩
  intro altered hlen hchanged hwrapped hfile pp' usk
  exact open_eq_err_of_altered hp hA hD hseal hlen hchanged hwrapped hfile pp' usk

/-- The tree `a`, `b` and `c` (two of them) exchanged for the leaf `a`. -/
theorem open_altered_leaf : ∃ package rng',
    «seal» exponents boxes serdeJson
      (registerAll (registerAll exampleSetup.1.1 exampleCalls) exampleLater) [1, 2, 3] exampleTree "2 of a, b, c"
      exampleDek (zeroBytes 12) (zeroBytes 12) (fun _ => 7) = .ok (package, rng') ∧
    ∀ usk, ∃ e, «open» exponents boxes serdeJson exampleSetup.1.1 usk
      { package with keyCiphertext := { package.keyCiphertext with tree := .leaf "a" } } =
        Outcome.err e := by
  obtain ⟨package, rng', hseal⟩ := exists_seal exponents boxes serdeJson correct_boxes [1, 2, 3]
    exampleTree_leaves "2 of a, b, c" exampleDek (zeroBytes 12) (zeroBytes 12) fun _ => 7
  have htree : package.keyCiphertext.tree = exampleTree :=
    (encrypted_of_eq_ok (of_seal_eq_ok exponents boxes serdeJson hseal).2.2.2).tree_eq
  have hne : (.leaf "a" : AccessTree) ≠ package.keyCiphertext.tree := by
    rw [htree]
    exact nofun
  have hlen : (.leaf "a" : AccessTree).ChildrenLt (2 ^ 64) := by decide
  exact ⟨package, rng', hseal, fun usk =>
    (open_altered (by norm_num : 2 ^ 64 < scalarModulus) binding_boxes (fun _ => rfl) hseal).1
      { package with keyCiphertext := { package.keyCiphertext with tree := .leaf "a" } } hlen
      (Or.inl hne) rfl rfl exampleSetup.1.1 usk⟩

end SecureABE.Envelope
