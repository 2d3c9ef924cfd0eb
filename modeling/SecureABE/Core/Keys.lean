import SecureABE.Foundations.HashMap
import SecureABE.Foundations.Text
import SecureABE.Policy.Tree

/-!
# Keys and ciphertexts

`core/src/keys.rs` and `core/src/error.rs`.
-/

namespace SecureABE.Core

open Rust SecureABE.Policy

variable (F G₁ G₂ Gₜ : Type)

/-- `t1 = g1^t` and `t2 = g2^t` for the exponent `t` of an attribute. -/
@[ext]
structure AttributeCommitment where
  t1 : G₁
  t2 : G₂
  deriving DecidableEq

/-- System-wide public parameters. -/
@[ext]
structure PublicParams where
  g1 : G₁
  g2 : G₂
  h : G₁
  eggAlpha : Gₜ
  attributes : HashMap String (AttributeCommitment G₁ G₂)

/-- System master secret. -/
@[ext]
structure MasterSecret where
  alpha : F
  beta : F
  deriving DecidableEq

/-- A single attribute's key material for one user. -/
@[ext]
structure AttributeKeyShare where
  dJ : G₂
  dJPrime : G₂
  deriving DecidableEq

/-- A user's decryption key for a set of attributes. -/
@[ext]
structure UserSecretKey where
  subject : String
  d : G₂
  attributes : HashMap String (AttributeKeyShare G₂)

variable {G₂} in
def UserSecretKey.attributeNames (usk : UserSecretKey G₂) : List String :=
  usk.attributes.iter.map Prod.fst

@[ext]
structure LeafCiphertext where
  path : List ℕ
  attr : String
  cy : G₁
  cyPrime : G₁
  deriving DecidableEq

@[ext]
structure WrappedKey where
  nonce : ByteArr 12
  ciphertext : Bytes
  deriving DecidableEq

/-- The ABE-encrypted form of a data-encryption key, bound to an access tree. -/
@[ext]
structure AbeCiphertext where
  tree : AccessTree
  c : G₁
  leaves : List (LeafCiphertext G₁)
  wrappedKey : WrappedKey

inductive AbeError
  | unknownAttribute (name : String)
  | policyNotSatisfied
  | unwrapFailed (msg : String)
  | encoding (msg : String)
  deriving DecidableEq, Repr

/-- The derived `Display`. -/
def AbeError.toText : AbeError → String
  | .unknownAttribute name =>
    "attribute '" ++ name ++ "' is not registered in the public parameters"
  | .policyNotSatisfied => "the held attribute set does not satisfy the ciphertext policy"
  | .unwrapFailed msg => "symmetric unwrap of the data key failed: " ++ msg
  | .encoding msg => "invalid key or ciphertext encoding: " ++ msg

end SecureABE.Core
