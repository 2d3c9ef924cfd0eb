import SecureABE.Core.Crates
import SecureABE.Core.Keys
import SecureABE.Core.Share
import SecureABE.Policy.Serde

/-!
# The CP-ABE scheme

`core/src/scheme.rs`. The scalars come from a stream (`Rng`), the nonce of the DEK wrap from the
operating system's generator and hence as an argument. The wiping of secrets after their last use
has no effect on the values computed and is left out. `recoverBlinding` is the first half of
`decrypt_key`, up to the blinding value that the key is derived from.
-/

namespace SecureABE.Core

open Rust SecureABE.Policy

variable {F G₁ G₂ Gₜ : Type} [Field F] [DecidableEq F] [AddCommGroup G₁] [Module F G₁]
  [AddCommGroup G₂] [Module F G₂] [AddCommGroup Gₜ] [Module F Gₜ]
variable (C : Curve F G₁ G₂ Gₜ) (A : Cipher) (D : Codec)

/-! ## Setup and registration -/

/-- Generates fresh system-wide public parameters and the matching master secret. -/
def setup (rng : Rng F) : (PublicParams G₁ G₂ Gₜ × MasterSecret F) × Rng F :=
  let g1 := C.g1
  let g2 := C.g2
  let (alpha, rng) := rng.next
  let (beta, rng) := rng.next
  let h := beta • g1
  let eggAlpha := alpha • C.pairing g1 g2
  (({ g1, g2, h, eggAlpha, attributes := ∅ }, { alpha, beta }), rng)

/-- Registers a new attribute name in the public parameters; a known one is left as it is. -/
def registerAttribute (pp : PublicParams G₁ G₂ Gₜ) (name : String) (rng : Rng F) :
    PublicParams G₁ G₂ Gₜ × Rng F :=
  if name ∈ pp.attributes then (pp, rng)
  else
    let (t, rng) := rng.next
    let t1 := t • pp.g1
    let t2 := t • pp.g2
    ({ pp with attributes := pp.attributes.insert name ⟨t1, t2⟩ }, rng)

/-! ## Key generation -/

/-- `&map[key]`. -/
def index {V ε : Type} (m : HashMap String V) (key : String) : Outcome ε V :=
  Outcome.expect "key not found in the map" (m.lookup key)

/-- The loop of `keygen` over the attributes. -/
def keygenLoop (pp : PublicParams G₁ G₂ Gₜ) (r : F) :
    List String → HashMap String (AttributeKeyShare G₂) → Rng F →
      Outcome AbeError (HashMap String (AttributeKeyShare G₂) × Rng F)
  | [], attributes, rng => .ok (attributes, rng)
  | a :: attrs, attributes, rng => do
    let commitment ← index pp.attributes a
    let (rJ, rng) := rng.next
    let dJ := r • pp.g2 + rJ • commitment.t2
    let dJPrime := rJ • pp.g2
    keygenLoop pp r attrs (attributes.insert a ⟨dJ, dJPrime⟩) rng

/-- Issues a decryption key binding the given attribute set to a fresh, per-user random `r`. -/
def keygen (pp : PublicParams G₁ G₂ Gₜ) (msk : MasterSecret F) (subject : String)
    (attrs : List String) (rng : Rng F) : Outcome AbeError (UserSecretKey G₂ × Rng F) :=
  match attrs.find? (fun a => decide (a ∉ pp.attributes)) with
  | some a => Outcome.err (.unknownAttribute a)
  | none => do
    let (r, rng) := rng.next
    let betaInv ← Outcome.expect "beta is sampled nonzero w.o.p." (invert msk.beta)
    let dExp := (msk.alpha + r) * betaInv
    let d := dExp • pp.g2
    let (attributes, rng) ← keygenLoop pp r attrs ∅ rng
    .ok ({ subject, d, attributes }, rng)

/-! ## Key derivation and associated data -/

/-- The canonical byte representation of a `Gt` element. -/
def gtCanonicalBytes (gt : Gₜ) : Bytes := utf8 (C.gtDebug gt)

def KDF_DOMAIN : Bytes := utf8 "SECURE_ABE_KDF_v1"

/-- Derives the key that wraps a DEK from a blinding value. -/
def kdf (gt : Gₜ) : ByteArr 32 := A.hkdf (gtCanonicalBytes C gt) KDF_DOMAIN

def DEK_WRAP_AAD_DOMAIN : Bytes := utf8 "SECURE_ABE_DEK_WRAP_v1"

/-- The associated data of a DEK wrap: the domain label and the encoded access tree. -/
def dekWrapAad (tree : AccessTree) : Outcome AbeError Bytes :=
  .ok (DEK_WRAP_AAD_DOMAIN ++ D.toVec tree.toJson)

/-! ## Encryption -/

/-- The loop of `encrypt_key` over the shares. -/
def encryptLeaves (pp : PublicParams G₁ G₂ Gₜ) :
    List (Share F) → Outcome AbeError (List (LeafCiphertext G₁))
  | [] => .ok []
  | share :: shares => do
    let commitment ← index pp.attributes share.attr
    let cy := share.lambda • pp.g1
    let cyPrime := share.lambda • commitment.t1
    let leaves ← encryptLeaves pp shares
    .ok (⟨share.path, share.attr, cy, cyPrime⟩ :: leaves)

/-- Encrypts a data-encryption key under an access tree. -/
def encryptKey (pp : PublicParams G₁ G₂ Gₜ) (dek : ByteArr 32) (tree : AccessTree) (rng : Rng F)
    (nonce : ByteArr 12) : Outcome AbeError (AbeCiphertext G₁ × Rng F) :=
  match tree.leaves.find? (fun leaf => decide (leaf ∉ pp.attributes)) with
  | some leaf => Outcome.err (.unknownAttribute leaf)
  | none => do
    let (s, rng) := rng.next
    let c := s • pp.h
    let blinding := s • pp.eggAlpha
    let (shares, rng) := shareSecret tree s rng
    let leaves ← encryptLeaves pp shares
    let keyBytes := kdf C A blinding
    let aad ← dekWrapAad D tree
    let ciphertext ← Outcome.okOr (.encoding "aead::Error") (A.encrypt keyBytes nonce dek.1 aad)
    .ok ({ tree, c, leaves, wrappedKey := { nonce, ciphertext } }, rng)

/-! ## Decryption -/

/-- The pairing value of a leaf with the component of its attribute. -/
def leafValue (keyShare : AttributeKeyShare G₂) (leaf : LeafCiphertext G₁) : Gₜ :=
  let num := C.pairing leaf.cy keyShare.dJ
  let den := C.pairing leaf.cyPrime keyShare.dJPrime
  num - den

/-- The body of the first loop of `decrypt_key`: the leaf's value, if its attribute is held. -/
def recordLeaf (usk : UserSecretKey G₂) (leafResults : LeafResult Gₜ) (leaf : LeafCiphertext G₁) :
    LeafResult Gₜ :=
  match usk.attributes.lookup leaf.attr with
  | some keyShare => leafResults.insert leaf.path (leafValue C keyShare leaf)
  | none => leafResults

/-- The pairing values of the leaves whose attribute is held: the first loop of `decrypt_key`. -/
def leafResultsOf (usk : UserSecretKey G₂) (leaves : List (LeafCiphertext G₁)) : LeafResult Gₜ :=
  leaves.foldl (recordLeaf C usk) ∅

/-- The blinding value that a key recovers from a ciphertext. -/
def recoverBlinding (usk : UserSecretKey G₂) (ct : AbeCiphertext G₁) : Outcome AbeError Gₜ := do
  let leafResults := leafResultsOf C usk ct.leaves
  let (root, _) ← recombine F ct.tree leafResults []
  let fRoot ← Outcome.okOr .policyNotSatisfied root
  let eCD := C.pairing ct.c usk.d
  .ok (eCD - fRoot)

/-- Attempts to recover the data-encryption key using the given user secret key. -/
def decryptKey (_pp : PublicParams G₁ G₂ Gₜ) (usk : UserSecretKey G₂) (ct : AbeCiphertext G₁) :
    Outcome AbeError (ByteArr 32) := do
  let blinding ← recoverBlinding C usk ct
  let keyBytes := kdf C A blinding
  let aad ← dekWrapAad D ct.tree
  let plaintext ← Outcome.okOr .policyNotSatisfied
    (A.decrypt keyBytes ct.wrappedKey.nonce ct.wrappedKey.ciphertext aad)
  Outcome.okOr (.encoding "unexpected DEK length") (ByteArr.ofBytes? 32 plaintext)

end SecureABE.Core
