import SecureABE.Core.Forged
import SecureABE.Envelope.Sealing

/-!
# Opening sealed documents

A package that was sealed under a tree (`Seals`) is opened by a key of the same deployment exactly if
the attributes of the key satisfy the tree (`open_eq`). It does not matter which of the two was made
first: what they were made with is still there in later parameters (`Seals.mono`, `Minted.mono`). Other
keys open nothing else, and nothing without the attributes (`of_open_eq_ok`).
-/

namespace SecureABE.Envelope

open Rust SecureABE.Core SecureABE.Policy

variable {F G₁ G₂ Gₜ : Type} [Field F] [DecidableEq F] [AddCommGroup G₁] [Module F G₁]
  [AddCommGroup G₂] [Module F G₂] [AddCommGroup Gₜ] [Module F Gₜ]
variable (C : Curve F G₁ G₂ Gₜ) (A : Cipher) (D : Codec)

/-- The package holds the document, sealed under the tree with the parameters. -/
def Seals (pp : PublicParams G₁ G₂ Gₜ) (tree : AccessTree) (plaintext : Bytes)
    (package : EncryptedPackage G₁) : Prop :=
  ∃ (dek : ByteArr 32) (s : F) (rng : Rng F),
    Encrypted C A D pp dek tree s rng package.keyCiphertext ∧
      A.encrypt dek package.sealedDoc.fileNonce plaintext (fileAad package.sealedDoc.policySummary) =
        some package.sealedDoc.fileCiphertext

variable {C A D} {pp : PublicParams G₁ G₂ Gₜ} {tree : AccessTree} {plaintext : Bytes}
  {package : EncryptedPackage G₁}

omit [DecidableEq F] in
theorem seals_of_seal_eq_ok {policySummary : String} {dek : ByteArr 32} {fileNonce wrapNonce : ByteArr 12}
    {rng rng' : Rng F} (h : «seal» C A D pp plaintext tree policySummary dek fileNonce wrapNonce rng =
      .ok (package, rng')) : Seals C A D pp tree plaintext package := by
  obtain ⟨hnonce, hsummary, hfile, hkey⟩ := of_seal_eq_ok C A D h
  refine ⟨dek, _, _, encrypted_of_eq_ok hkey, ?_⟩
  rw [hnonce, hsummary, hfile]

omit [DecidableEq F] in
theorem Seals.mono {pp' : PublicParams G₁ G₂ Gₜ} (hext : Extends pp pp')
    (h : Seals C A D pp tree plaintext package) :
    Seals C A D pp' tree plaintext package := by
  obtain ⟨dek, s, rng, henc, hfile⟩ := h
  exact ⟨dek, s, rng, henc.mono C D hext, hfile⟩

omit [DecidableEq F] in
theorem Seals.tree_eq (h : Seals C A D pp tree plaintext package) :
    package.keyCiphertext.tree = tree := by
  obtain ⟨dek, s, rng, henc, -⟩ := h
  exact henc.tree_eq

/-- **A minted key opens a sealed document exactly if its attributes satisfy the tree**. -/
theorem open_eq (pp' : PublicParams G₁ G₂ Gₜ) (hA : A.Correct) {n : ℕ} (hF : IndicesDistinct F n)
    {msk : MasterSecret F}
    (hbeta : msk.beta ≠ 0) (hpp : Deployed C msk pp) {attrs : List String} {r : F}
    {usk : UserSecretKey G₂} (husk : Minted pp msk attrs r usk) (hpos : tree.Positive)
    (htree : tree.ChildrenLt n) (h : Seals C A D pp tree plaintext package) :
    «open» C A D pp' usk package =
      if tree.isSatisfiedBy attrs then .ok plaintext
      else Outcome.err (.keyWrap .policyNotSatisfied) := by
  obtain ⟨dek, s, rng, henc, hfile⟩ := h
  have hblinding := recoverBlinding_minted hF hbeta hpp hpp (Extends.refl pp) husk hpos htree henc
  by_cases hsat : tree.isSatisfiedBy attrs
  · rw [if_pos hsat] at hblinding ⊢
    have hfileOpen := hA.decrypt_encrypt _ _ _ _ _ hfile
    rw [«open», decryptKey_of_blinding hA henc hblinding, Outcome.mapErr_ok, ok_bind]
    simp only [hfileOpen, Outcome.okOr_some]
  · rw [if_neg hsat] at hblinding ⊢
    rw [«open», decryptKey_of_err hblinding, Outcome.mapErr_err]
    rfl

/-- **What any key opens** is the document that was sealed, and the attributes of the key satisfy the tree,
where the encryption opens under the right key only. -/
theorem of_open_eq_ok (hA : A.Correct) (hbind : A.Binding) {n : ℕ} (hF : IndicesDistinct F n)
    {msk : MasterSecret F} (hpp : Deployed C msk pp) (htree : tree.ChildrenLt n)
    (h : Seals C A D pp tree plaintext package) {pp' : PublicParams G₁ G₂ Gₜ} {usk : UserSecretKey G₂}
    {opened : Bytes} (hopen : «open» C A D pp' usk package = .ok opened) :
    tree.isSatisfiedBy usk.attributeNames = true ∧ opened = plaintext := by
  obtain ⟨dek, s, rng, henc, hfile⟩ := h
  rw [«open»] at hopen
  obtain ⟨dek', hdek, hopen⟩ := bind_eq_ok.1 hopen
  obtain ⟨hsat, rfl⟩ := of_decryptKey_eq_ok hF hA hbind hpp htree henc (Outcome.mapErr_eq_ok.1 hdek)
  have hfileOpen := hA.decrypt_encrypt _ _ _ _ _ hfile
  simp only [hfileOpen, Outcome.okOr_some] at hopen
  exact ⟨hsat, (Except.ok.inj hopen).symm⟩

end SecureABE.Envelope
