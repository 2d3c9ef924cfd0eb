import SecureABE.Foundations.JsonText
import SecureABE.Foundations.Outcome
import SecureABE.Foundations.Text
import Mathlib.Algebra.Module.LinearMap.Basic
import Mathlib.LinearAlgebra.BilinearMap

/-!
# The crates the program depends on

The curve, the symmetric primitives, the hexadecimal codec and the JSON library come from other
crates. Each is a structure of the functions that the program calls, a parameter of everything
below. What the algebra of the curve guarantees (prime-order cyclic groups, a bilinear
nondegenerate pairing) is part of `Curve`; what is assumed of the other crates is stated by the
predicates after each structure, and a result lists the ones it needs.

The groups are written additively, with the scalars acting, as in `bls12_381`.
-/

namespace SecureABE.Core

open Rust

/-! ## `bls12_381` -/

/-- Scalars commute. -/
instance smulCommClass_scalars (F G : Type) [Field F] [AddCommGroup G] [Module F G] :
    SMulCommClass F F G := smulCommClass_self F G

/-- The pairing groups, with their generators and encodings. -/
structure Curve (F G₁ G₂ Gₜ : Type) [Field F] [AddCommGroup G₁] [Module F G₁] [AddCommGroup G₂]
    [Module F G₂] [AddCommGroup Gₜ] [Module F Gₜ] where
  /-- `G1Affine::generator`. -/
  g1 : G₁
  /-- `G2Affine::generator`. -/
  g2 : G₂
  pairing : G₁ →ₗ[F] G₂ →ₗ[F] Gₜ
  g1_spans : ∀ x : G₁, ∃ a : F, x = a • g1
  g2_spans : ∀ x : G₂, ∃ a : F, x = a • g2
  gt_spans : ∀ x : Gₜ, ∃ a : F, x = a • pairing g1 g2
  pairing_ne_zero : pairing g1 g2 ≠ 0
  /-- `format!("{:?}", gt)`. -/
  gtDebug : Gₜ → String
  g1ToCompressed : G₁ → ByteArr 48
  g1FromCompressed : ByteArr 48 → Option G₁
  g2ToCompressed : G₂ → ByteArr 96
  g2FromCompressed : ByteArr 96 → Option G₂
  scalarToBytes : F → ByteArr 32
  scalarFromBytes : ByteArr 32 → Option F

section Curve

variable {F G₁ G₂ Gₜ : Type} [Field F] [AddCommGroup G₁] [Module F G₁] [AddCommGroup G₂]
  [Module F G₂] [AddCommGroup Gₜ] [Module F Gₜ]

/-- Points and scalars are read back from their encodings. -/
structure Curve.ReadsBack (C : Curve F G₁ G₂ Gₜ) : Prop where
  g1 : ∀ x, C.g1FromCompressed (C.g1ToCompressed x) = some x
  g2 : ∀ x, C.g2FromCompressed (C.g2ToCompressed x) = some x
  scalar : ∀ a, C.scalarFromBytes (C.scalarToBytes a) = some a

end Curve

/-! ## `hkdf` and `aes_gcm` -/

/-- The key derivation and the authenticated encryption. -/
structure Cipher where
  /-- `Hkdf::<Sha256>::new(None, ikm).expand(info, ..)` into 32 bytes. -/
  hkdf : (ikm info : Bytes) → ByteArr 32
  /-- `Aes256Gcm::encrypt` under a key and a nonce, of a message with associated data. -/
  encrypt : ByteArr 32 → ByteArr 12 → (msg aad : Bytes) → Option Bytes
  decrypt : ByteArr 32 → ByteArr 12 → (ciphertext aad : Bytes) → Option Bytes

/-- Encryption does not fail, and decryption with the same key, nonce and associated data undoes
it. -/
structure Cipher.Correct (A : Cipher) : Prop where
  encrypt_isSome : ∀ key nonce msg aad, (A.encrypt key nonce msg aad).isSome
  decrypt_encrypt : ∀ key nonce msg aad ciphertext,
    A.encrypt key nonce msg aad = some ciphertext → A.decrypt key nonce ciphertext aad = some msg

/-- A ciphertext is rejected under any other key, nonce and associated data than those it was made
with. -/
structure Cipher.Binding (A : Cipher) : Prop where
  decrypt_eq_none : ∀ key nonce msg aad ciphertext, A.encrypt key nonce msg aad = some ciphertext →
    ∀ key' nonce' aad', (key', nonce', aad') ≠ (key, nonce, aad) →
      A.decrypt key' nonce' ciphertext aad' = none

/-! ## `serde_json` and `hex` -/

/-- The text codecs. -/
structure Codec where
  toStringPretty : Json → String
  toString : Json → String
  /-- `serde_json::from_str` into a `Json`; the decoder of the target type comes after it. -/
  fromStr : String → Except String Json
  hexEncode : Bytes → String
  hexDecode : String → Except String Bytes

/-- `hex::decode` undoes `hex::encode`, which writes hexadecimal digits only. -/
structure Codec.HexReadsBack (D : Codec) : Prop where
  decode_encode : ∀ b, D.hexDecode (D.hexEncode b) = .ok b
  digits : ∀ b, ∀ c ∈ (D.hexEncode b).toList, c ∈ "0123456789abcdef".toList

/-- A printed value is read back. -/
structure Codec.ReadsBack (D : Codec) : Prop where
  pretty : ∀ j, D.fromStr (D.toStringPretty j) = .ok j
  compact : ∀ j, D.fromStr (D.toString j) = .ok j

/-- A printed value is read back unless arrays and objects are nested 128 or more levels deep, which
is refused: the recursion limit of `serde_json`. -/
structure Codec.ReadsBackShallow (D : Codec) : Prop where
  pretty : ∀ j, j.depth < 128 → D.fromStr (D.toStringPretty j) = .ok j
  pretty_deep : ∀ j, 128 ≤ j.depth → ∃ msg, D.fromStr (D.toStringPretty j) = .error msg

/-- A printed value is read back if its arrays and objects are nested less than 128 levels deep. -/
def Codec.ReadsShallow (D : Codec) : Prop :=
  ∀ j, j.depth < 128 → D.fromStr (D.toStringPretty j) = .ok j

theorem Codec.ReadsBack.shallow {D : Codec} (hD : D.ReadsBack) : D.ReadsShallow :=
  fun j _ => hD.pretty j

theorem Codec.ReadsBackShallow.shallow {D : Codec} (hD : D.ReadsBackShallow) : D.ReadsShallow :=
  hD.pretty

/-- What is read back from a printed value is that value. A value that is nested 128 or more levels deep
may be refused. -/
structure Codec.ReadsFaithfully (D : Codec) : Prop where
  shallow : D.ReadsShallow
  eq_of_pretty : ∀ j j', D.fromStr (D.toStringPretty j) = .ok j' → j' = j

theorem Codec.ReadsBack.faithfully {D : Codec} (hD : D.ReadsBack) : D.ReadsFaithfully where
  shallow := hD.shallow
  eq_of_pretty j _ h := Except.ok.inj (h.symm.trans (hD.pretty j))

theorem Codec.ReadsBackShallow.faithfully {D : Codec} (hD : D.ReadsBackShallow) :
    D.ReadsFaithfully where
  shallow := hD.shallow
  eq_of_pretty j _ h := by
    by_cases hdepth : j.depth < 128
    · exact Except.ok.inj (h.symm.trans (hD.pretty j hdepth))
    · obtain ⟨msg, hmsg⟩ := hD.pretty_deep j (not_lt.1 hdepth)
      rw [hmsg] at h
      cases h

/-- A value is printed as `serde_json::to_string` prints it: without blanks, and the characters of a
string escaped. -/
def Codec.PrintsCompact (D : Codec) : Prop :=
  ∀ j, D.toString j = String.ofList (Json.render Json.compact 0 j)

/-- What is printed is on one line. -/
theorem Codec.PrintsCompact.newline_notMem {D : Codec} (hD : D.PrintsCompact) (j : Json) :
    (10 : UInt8) ∉ utf8 (D.toString j) := by
  intro h
  have hline := newline_mem_of_mem_utf8 h
  rw [hD, String.toList_ofList] at hline
  exact Json.newline_notMem_render j 0 hline

/-- A compact text is read back if its value is nested less than 128 levels deep, and refused when an
object follows it: the trailing characters of `serde_json`. -/
structure Codec.ReadsCompact (D : Codec) : Prop where
  compact : ∀ j, j.depth < 128 → D.fromStr (D.toString j) = .ok j
  trailing : ∀ j text, ∃ msg, D.fromStr (D.toString j ++ ("\x7b" ++ text)) = .error msg

/-- `serde_json::to_vec`: the bytes of the compact text. -/
def Codec.toVec (D : Codec) (j : Json) : Bytes := utf8 (D.toString j)

/-- Values printed to the same bytes are equal. -/
theorem Codec.PrintsCompact.toVec_injective {D : Codec} (hD : D.PrintsCompact) :
    Function.Injective D.toVec := by
  intro j j' h
  have htext : D.toString j = D.toString j' := utf8_injective h
  rw [hD, hD] at htext
  exact Json.render_injective Json.blank_compact (String.ofList_injective htext)

end SecureABE.Core
