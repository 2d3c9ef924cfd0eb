import SecureABE.Core.Operations

/-!
# Sealed documents

`envelope/src/lib.rs`: a document is encrypted under a random key (DEK), which the scheme encrypts
under an access tree. The random values are arguments: the DEK, the nonces of the two symmetric
encryptions, and the generator of the scalars.
-/

namespace SecureABE.Envelope

open Rust SecureABE.Core SecureABE.Policy

variable {F G₁ G₂ Gₜ : Type} [Field F] [DecidableEq F] [AddCommGroup G₁] [Module F G₁]
  [AddCommGroup G₂] [Module F G₂] [AddCommGroup Gₜ] [Module F Gₜ]

def FILE_AAD_DOMAIN : Bytes := utf8 "SECURE_ABE_FILE_v1"

/-- The associated data of the document: the domain label and the policy summary. -/
def fileAad (policySummary : String) : Bytes := FILE_AAD_DOMAIN ++ utf8 policySummary

inductive EnvelopeError
  | keyWrap (e : AbeError)
  | fileCrypto (msg : String)
  deriving DecidableEq, Repr

/-- The derived `Display`. -/
def EnvelopeError.toText : EnvelopeError → String
  | .keyWrap e => "data-key wrapping failed: " ++ e.toText
  | .fileCrypto msg => "file encryption failed: " ++ msg

/-- The encrypted document with the policy shown for it. -/
@[ext]
structure SealedDocument where
  fileNonce : ByteArr 12
  fileCiphertext : Bytes
  policySummary : String
  deriving DecidableEq

/-- The derived `Serialize`. -/
def SealedDocument.toJson (doc : SealedDocument) : Json :=
  .obj [("file_nonce", .arr (doc.fileNonce.1.map fun b => .num b.toNat)),
    ("file_ciphertext", .arr (doc.fileCiphertext.map fun b => .num b.toNat)),
    ("policy_summary", .str doc.policySummary)]

/-- The derived `Deserialize`. -/
def SealedDocument.fromJson (j : Json) : Json.Decoded SealedDocument := do
  match ← Json.structFields ["file_nonce", "file_ciphertext", "policy_summary"] j with
  | [nonce, ciphertext, summary] => do
    let nonce ← nonce.asSeq Json.asByte
    let fileCiphertext ← ciphertext.asSeq Json.asByte
    let policySummary ← summary.asStr
    match ByteArr.ofBytes? 12 nonce with
    | some fileNonce => .ok { fileNonce, fileCiphertext, policySummary }
    | none => .error "invalid length"
  | _ => .error "invalid length"

/-- **A printed document is read back.** -/
theorem SealedDocument.fromJson_toJson (doc : SealedDocument) : fromJson doc.toJson = .ok doc := by
  have hfields : Json.structFields ["file_nonce", "file_ciphertext", "policy_summary"] doc.toJson =
      .ok [_, _, _] := Json.structFields_obj rfl (by decide)
  have hbytes : ∀ b : Bytes, Json.asSeq Json.asByte (.arr (b.map fun b => .num b.toNat)) = .ok b :=
    fun b => Json.asSeq_map fun b _ => Json.asByte_num b
  rw [fromJson, hfields]
  simp only [ok_bind, hbytes, Json.asStr_str, ByteArr.ofBytes?_val]

/-- The sealed document and the wrapped key. -/
structure EncryptedPackage (G₁ : Type) where
  sealedDoc : SealedDocument
  keyCiphertext : AbeCiphertext G₁

variable (C : Curve F G₁ G₂ Gₜ) (A : Cipher) (D : Codec)

/-- Encrypts a document under an access tree. -/
def «seal» (pp : PublicParams G₁ G₂ Gₜ) (plaintext : Bytes) (tree : AccessTree) (policySummary : String)
    (dek : ByteArr 32) (fileNonce wrapNonce : ByteArr 12) (rng : Rng F) :
    Outcome EnvelopeError (EncryptedPackage G₁ × Rng F) := do
  let aad := fileAad policySummary
  let fileCiphertext ← Outcome.okOr (.fileCrypto "aead::Error")
    (A.encrypt dek fileNonce plaintext aad)
  let (keyCiphertext, rng) ← Outcome.mapErr .keyWrap (encryptKey C A D pp dek tree rng wrapNonce)
  .ok ({ sealedDoc := { fileNonce, fileCiphertext, policySummary }, keyCiphertext }, rng)

omit [DecidableEq F] in
/-- What sealing returns, whenever it succeeds. -/
theorem of_seal_eq_ok {pp : PublicParams G₁ G₂ Gₜ} {plaintext : Bytes} {tree : AccessTree}
    {policySummary : String} {dek : ByteArr 32} {fileNonce wrapNonce : ByteArr 12} {rng rng' : Rng F}
    {package : EncryptedPackage G₁}
    (h : «seal» C A D pp plaintext tree policySummary dek fileNonce wrapNonce rng =
      .ok (package, rng')) :
    package.sealedDoc.fileNonce = fileNonce ∧ package.sealedDoc.policySummary = policySummary ∧
      A.encrypt dek fileNonce plaintext (fileAad policySummary) =
        some package.sealedDoc.fileCiphertext ∧
      encryptKey C A D pp dek tree rng wrapNonce = .ok (package.keyCiphertext, rng') := by
  obtain ⟨ciphertext, hfile, h⟩ := bind_eq_ok.1 h
  obtain ⟨⟨keyCiphertext, rng''⟩, hkey, hret⟩ := bind_eq_ok.1 h
  obtain ⟨rfl, rfl⟩ := Prod.mk.inj (Except.ok.inj hret)
  exact ⟨rfl, rfl, Outcome.okOr_eq_ok.1 hfile, Outcome.mapErr_eq_ok.1 hkey⟩

omit [DecidableEq F] in
/-- Sealing succeeds under trees with registered leaves. -/
theorem exists_seal (hA : A.Correct) {pp : PublicParams G₁ G₂ Gₜ} (plaintext : Bytes)
    {tree : AccessTree} (htree : ∀ a ∈ tree.leaves, a ∈ pp.attributes) (policySummary : String)
    (dek : ByteArr 32) (fileNonce wrapNonce : ByteArr 12) (rng : Rng F) : ∃ package rng',
    «seal» C A D pp plaintext tree policySummary dek fileNonce wrapNonce rng = .ok (package, rng') := by
  obtain ⟨fileCiphertext, hfile⟩ := Option.isSome_iff_exists.1
    (hA.encrypt_isSome dek fileNonce plaintext (fileAad policySummary))
  obtain ⟨ct, hct, -⟩ := encryptKey_spec C D hA dek htree rng wrapNonce
  refine ⟨⟨⟨fileNonce, fileCiphertext, policySummary⟩, ct⟩, rng.drop (1 + coeffCount tree), ?_⟩
  simp only [«seal», hfile, hct, Outcome.okOr_some, Outcome.mapErr_ok, ok_bind]

/-- Decrypts a document with a user key. -/
def «open» (pp : PublicParams G₁ G₂ Gₜ) (usk : UserSecretKey G₂) (package : EncryptedPackage G₁) :
    Outcome EnvelopeError Bytes := do
  let dek ← Outcome.mapErr .keyWrap (decryptKey C A D pp usk package.keyCiphertext)
  let aad := fileAad package.sealedDoc.policySummary
  Outcome.okOr (.fileCrypto "aead::Error")
    (A.decrypt dek package.sealedDoc.fileNonce package.sealedDoc.fileCiphertext aad)

end SecureABE.Envelope
