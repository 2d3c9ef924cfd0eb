import SecureABE.Core.Scheme

/-!
# JSON forms of parameters, keys and ciphertexts

`core/src/codec.rs`. Group elements and scalars are written as the hexadecimal text of their bytes,
in structures of strings (`..Dto`) that have derived encodings. The public parameters of a setup
bundle are not written but for the commitments: the rest is computed again from the master secret.

Each encoding is undone by its decoder (`setupBundleFromJson_toJson`, `userKeyFromJson_toJson`,
`ciphertextFromJson_toJson`) as far as the JSON library reads the printed value back.
-/

namespace SecureABE.Core

open Rust SecureABE.Policy

variable {F G₁ G₂ Gₜ : Type} [Field F] [AddCommGroup G₁] [Module F G₁] [AddCommGroup G₂] [Module F G₂]
  [AddCommGroup Gₜ] [Module F Gₜ]
variable (C : Curve F G₁ G₂ Gₜ) (D : Codec)

/-! ## Hexadecimal texts -/

def enc (bytes : Bytes) : String := D.hexEncode bytes

def dec (s : String) : Outcome AbeError Bytes := Outcome.ofExcept .encoding (D.hexDecode s)

/-- Decodes a text into an array of `n` bytes, and the array into a value. -/
def fromHex {α : Type} (n : ℕ) (badLength invalid : String) (decode : ByteArr n → Option α)
    (s : String) : Outcome AbeError α := do
  let bytes ← dec D s
  let arr ← Outcome.okOr (.encoding badLength) (ByteArr.ofBytes? n bytes)
  Outcome.okOr (.encoding invalid) (decode arr)

def g1ToHex (p : G₁) : String := enc D (C.g1ToCompressed p).1

def g1FromHex : String → Outcome AbeError G₁ :=
  fromHex D 48 "bad G1 length" "invalid G1 point" C.g1FromCompressed

def g2ToHex (p : G₂) : String := enc D (C.g2ToCompressed p).1

def g2FromHex : String → Outcome AbeError G₂ :=
  fromHex D 96 "bad G2 length" "invalid G2 point" C.g2FromCompressed

def scalarToHex (s : F) : String := enc D (C.scalarToBytes s).1

def scalarFromHex : String → Outcome AbeError F :=
  fromHex D 32 "bad scalar length" "invalid scalar" C.scalarFromBytes

/-! ## Setup bundles -/

structure AttrCommitmentDto where
  t1 : String
  t2 : String

def AttrCommitmentDto.toJson (dto : AttrCommitmentDto) : Json :=
  .obj [("t1", .str dto.t1), ("t2", .str dto.t2)]

def AttrCommitmentDto.fromJson (j : Json) : Json.Decoded AttrCommitmentDto := do
  match ← Json.structFields ["t1", "t2"] j with
  | [t1, t2] => do .ok { t1 := ← t1.asStr, t2 := ← t2.asStr }
  | _ => .error "invalid length"

/-- Public parameters and master secret together, so that the former can be computed again. -/
structure SetupBundleDto where
  alpha : String
  beta : String
  attributes : HashMap String AttrCommitmentDto

def SetupBundleDto.toJson (dto : SetupBundleDto) : Json :=
  .obj [("alpha", .str dto.alpha), ("beta", .str dto.beta),
    ("attributes", .obj (HashMap.mapValues AttrCommitmentDto.toJson dto.attributes))]

def SetupBundleDto.fromJson (j : Json) : Json.Decoded SetupBundleDto := do
  match ← Json.structFields ["alpha", "beta", "attributes"] j with
  | [alpha, beta, attributes] => do
    let alpha ← alpha.asStr
    let beta ← beta.asStr
    let attributes ← attributes.asMap AttrCommitmentDto.fromJson
    .ok { alpha, beta, attributes := HashMap.collect attributes }
  | _ => .error "invalid length"

def commitmentDto (c : AttributeCommitment G₁ G₂) : AttrCommitmentDto :=
  { t1 := g1ToHex C D c.t1, t2 := g2ToHex C D c.t2 }

def setupBundleDto (pp : PublicParams G₁ G₂ Gₜ) (msk : MasterSecret F) : SetupBundleDto where
  alpha := scalarToHex C D msk.alpha
  beta := scalarToHex C D msk.beta
  attributes := HashMap.collect (HashMap.mapValues (commitmentDto C D) pp.attributes)

def setupBundleToJson (pp : PublicParams G₁ G₂ Gₜ) (msk : MasterSecret F) : String :=
  D.toStringPretty (setupBundleDto C D pp msk).toJson

def commitmentOfDto (dto : AttrCommitmentDto) : Outcome AbeError (AttributeCommitment G₁ G₂) := do
  .ok { t1 := ← g1FromHex C D dto.t1, t2 := ← g2FromHex C D dto.t2 }

def setupBundleFromJson (s : String) :
    Outcome AbeError (PublicParams G₁ G₂ Gₜ × MasterSecret F) := do
  let dto ← Outcome.ofExcept .encoding (D.fromStr s >>= SetupBundleDto.fromJson)
  let alpha ← scalarFromHex C D dto.alpha
  let beta ← scalarFromHex C D dto.beta
  let g1 := C.g1
  let g2 := C.g2
  let h := beta • g1
  let eggAlpha := alpha • C.pairing g1 g2
  let attributes ← HashMap.insertAll (commitmentOfDto C D) dto.attributes.iter ∅
  .ok ({ g1, g2, h, eggAlpha, attributes }, { alpha, beta })

/-! ## User keys -/

structure AttrKeyShareDto where
  dJ : String
  dJPrime : String

def AttrKeyShareDto.toJson (dto : AttrKeyShareDto) : Json :=
  .obj [("d_j", .str dto.dJ), ("d_j_prime", .str dto.dJPrime)]

def AttrKeyShareDto.fromJson (j : Json) : Json.Decoded AttrKeyShareDto := do
  match ← Json.structFields ["d_j", "d_j_prime"] j with
  | [dJ, dJPrime] => do .ok { dJ := ← dJ.asStr, dJPrime := ← dJPrime.asStr }
  | _ => .error "invalid length"

structure UserSecretKeyDto where
  subject : String
  d : String
  attributes : HashMap String AttrKeyShareDto

def UserSecretKeyDto.toJson (dto : UserSecretKeyDto) : Json :=
  .obj [("subject", .str dto.subject), ("d", .str dto.d),
    ("attributes", .obj (HashMap.mapValues AttrKeyShareDto.toJson dto.attributes))]

def UserSecretKeyDto.fromJson (j : Json) : Json.Decoded UserSecretKeyDto := do
  match ← Json.structFields ["subject", "d", "attributes"] j with
  | [subject, d, attributes] => do
    let subject ← subject.asStr
    let d ← d.asStr
    let attributes ← attributes.asMap AttrKeyShareDto.fromJson
    .ok { subject, d, attributes := HashMap.collect attributes }
  | _ => .error "invalid length"

def keyShareDto (share : AttributeKeyShare G₂) : AttrKeyShareDto :=
  { dJ := g2ToHex C D share.dJ, dJPrime := g2ToHex C D share.dJPrime }

def userKeyDto (usk : UserSecretKey G₂) : UserSecretKeyDto where
  subject := usk.subject
  d := g2ToHex C D usk.d
  attributes := HashMap.collect (HashMap.mapValues (keyShareDto C D) usk.attributes)

def userKeyToJson (usk : UserSecretKey G₂) : String := D.toStringPretty (userKeyDto C D usk).toJson

def keyShareOfDto (dto : AttrKeyShareDto) : Outcome AbeError (AttributeKeyShare G₂) := do
  .ok { dJ := ← g2FromHex C D dto.dJ, dJPrime := ← g2FromHex C D dto.dJPrime }

def userKeyFromJson (s : String) : Outcome AbeError (UserSecretKey G₂) := do
  let dto ← Outcome.ofExcept .encoding (D.fromStr s >>= UserSecretKeyDto.fromJson)
  let attributes ← HashMap.insertAll (keyShareOfDto C D) dto.attributes.iter ∅
  .ok { subject := dto.subject, d := ← g2FromHex C D dto.d, attributes }

/-! ## Ciphertexts -/

structure LeafCiphertextDto where
  path : List ℕ
  attr : String
  cy : String
  cyPrime : String

def LeafCiphertextDto.toJson (dto : LeafCiphertextDto) : Json :=
  .obj [("path", .arr (dto.path.map .num)), ("attribute", .str dto.attr), ("cy", .str dto.cy),
    ("cy_prime", .str dto.cyPrime)]

def LeafCiphertextDto.fromJson (j : Json) : Json.Decoded LeafCiphertextDto := do
  match ← Json.structFields ["path", "attribute", "cy", "cy_prime"] j with
  | [path, attr, cy, cyPrime] => do
    .ok { path := ← path.asSeq (Json.asUnsigned 64), attr := ← attr.asStr, cy := ← cy.asStr,
          cyPrime := ← cyPrime.asStr }
  | _ => .error "invalid length"

structure WrappedKeyDto where
  nonce : String
  ciphertext : String

def WrappedKeyDto.toJson (dto : WrappedKeyDto) : Json :=
  .obj [("nonce", .str dto.nonce), ("ciphertext", .str dto.ciphertext)]

def WrappedKeyDto.fromJson (j : Json) : Json.Decoded WrappedKeyDto := do
  match ← Json.structFields ["nonce", "ciphertext"] j with
  | [nonce, ciphertext] => do .ok { nonce := ← nonce.asStr, ciphertext := ← ciphertext.asStr }
  | _ => .error "invalid length"

structure AbeCiphertextDto where
  tree : AccessTree
  c : String
  leaves : List LeafCiphertextDto
  wrappedKey : WrappedKeyDto

def AbeCiphertextDto.toJson (dto : AbeCiphertextDto) : Json :=
  .obj [("tree", dto.tree.toJson), ("c", .str dto.c),
    ("leaves", .arr (dto.leaves.map LeafCiphertextDto.toJson)),
    ("wrapped_key", dto.wrappedKey.toJson)]

def AbeCiphertextDto.fromJson (j : Json) : Json.Decoded AbeCiphertextDto := do
  match ← Json.structFields ["tree", "c", "leaves", "wrapped_key"] j with
  | [tree, c, leaves, wrappedKey] => do
    .ok { tree := ← AccessTree.fromJson tree, c := ← c.asStr,
          leaves := ← leaves.asSeq LeafCiphertextDto.fromJson,
          wrappedKey := ← WrappedKeyDto.fromJson wrappedKey }
  | _ => .error "invalid length"

def leafDto (l : LeafCiphertext G₁) : LeafCiphertextDto :=
  { path := l.path, attr := l.attr, cy := g1ToHex C D l.cy, cyPrime := g1ToHex C D l.cyPrime }

def ciphertextDto (ct : AbeCiphertext G₁) : AbeCiphertextDto where
  tree := ct.tree
  c := g1ToHex C D ct.c
  leaves := ct.leaves.map (leafDto C D)
  wrappedKey := { nonce := enc D ct.wrappedKey.nonce.1, ciphertext := enc D ct.wrappedKey.ciphertext }

def ciphertextToJson (ct : AbeCiphertext G₁) : String := D.toStringPretty (ciphertextDto C D ct).toJson

def leafOfDto (l : LeafCiphertextDto) : Outcome AbeError (LeafCiphertext G₁) := do
  .ok { path := l.path, attr := l.attr, cy := ← g1FromHex C D l.cy,
        cyPrime := ← g1FromHex C D l.cyPrime }

def ciphertextFromJson (s : String) : Outcome AbeError (AbeCiphertext G₁) := do
  let dto ← Outcome.ofExcept .encoding (D.fromStr s >>= AbeCiphertextDto.fromJson)
  let leaves ← Outcome.mapList (leafOfDto C D) dto.leaves
  let nonceBytes ← dec D dto.wrappedKey.nonce
  let nonce ← Outcome.okOr (.encoding "bad nonce length") (ByteArr.ofBytes? 12 nonceBytes)
  let c ← g1FromHex C D dto.c
  let ciphertext ← dec D dto.wrappedKey.ciphertext
  .ok { tree := dto.tree, c, leaves, wrappedKey := { nonce, ciphertext } }

/-! ## Reading back -/

variable {C D}

section Hex

variable (hC : C.ReadsBack) (hX : D.HexReadsBack)
include hX

theorem dec_enc (b : Bytes) : dec D (enc D b) = .ok b := by
  unfold dec enc
  rw [hX.decode_encode, Outcome.ofExcept_ok]

theorem fromHex_enc {α : Type} {n : ℕ} {badLength invalid : String} {decode : ByteArr n → Option α}
    {arr : ByteArr n} {a : α} (h : decode arr = some a) :
    fromHex D n badLength invalid decode (enc D arr.1) = .ok a := by
  rw [fromHex, dec_enc hX]
  simp only [ok_bind, ByteArr.ofBytes?_val, Outcome.okOr_some, h]

include hC

theorem g1FromHex_toHex (p : G₁) : g1FromHex C D (g1ToHex C D p) = .ok p :=
  fromHex_enc hX (hC.g1 p)

theorem g2FromHex_toHex (p : G₂) : g2FromHex C D (g2ToHex C D p) = .ok p :=
  fromHex_enc hX (hC.g2 p)

theorem scalarFromHex_toHex (s : F) : scalarFromHex C D (scalarToHex C D s) = .ok s :=
  fromHex_enc hX (hC.scalar s)

theorem commitmentOfDto_dto (c : AttributeCommitment G₁ G₂) :
    commitmentOfDto C D (commitmentDto C D c) = .ok c := by
  unfold commitmentOfDto commitmentDto
  simp only [g1FromHex_toHex hC hX, g2FromHex_toHex hC hX, ok_bind]

theorem keyShareOfDto_dto (share : AttributeKeyShare G₂) :
    keyShareOfDto C D (keyShareDto C D share) = .ok share := by
  unfold keyShareOfDto keyShareDto
  simp only [g2FromHex_toHex hC hX, ok_bind]

theorem leafOfDto_dto (l : LeafCiphertext G₁) : leafOfDto C D (leafDto C D l) = .ok l := by
  unfold leafOfDto leafDto
  simp only [g1FromHex_toHex hC hX, ok_bind]

end Hex

theorem AttrCommitmentDto.fromJson_toJson (dto : AttrCommitmentDto) : fromJson dto.toJson = .ok dto := by
  have hfields : Json.structFields ["t1", "t2"] dto.toJson = .ok [_, _] :=
    Json.structFields_obj rfl (by decide)
  rw [fromJson, hfields]
  rfl

theorem AttrKeyShareDto.fromJson_toJson (dto : AttrKeyShareDto) : fromJson dto.toJson = .ok dto := by
  have hfields : Json.structFields ["d_j", "d_j_prime"] dto.toJson = .ok [_, _] :=
    Json.structFields_obj rfl (by decide)
  rw [fromJson, hfields]
  rfl

theorem WrappedKeyDto.fromJson_toJson (dto : WrappedKeyDto) : fromJson dto.toJson = .ok dto := by
  have hfields : Json.structFields ["nonce", "ciphertext"] dto.toJson = .ok [_, _] :=
    Json.structFields_obj rfl (by decide)
  rw [fromJson, hfields]
  rfl

theorem SetupBundleDto.fromJson_toJson (dto : SetupBundleDto) : fromJson dto.toJson = .ok dto := by
  have hfields : Json.structFields ["alpha", "beta", "attributes"] dto.toJson = .ok [_, _, _] :=
    Json.structFields_obj rfl (by decide)
  have hattrs : Json.asMap AttrCommitmentDto.fromJson
      (.obj (HashMap.mapValues AttrCommitmentDto.toJson dto.attributes)) = .ok dto.attributes.iter :=
    Json.asMap_mapValues fun e _ => AttrCommitmentDto.fromJson_toJson e.2
  rw [fromJson, hfields]
  simp only [ok_bind, Json.asStr_str, hattrs, HashMap.collect_iter]

theorem UserSecretKeyDto.fromJson_toJson (dto : UserSecretKeyDto) : fromJson dto.toJson = .ok dto := by
  have hfields : Json.structFields ["subject", "d", "attributes"] dto.toJson = .ok [_, _, _] :=
    Json.structFields_obj rfl (by decide)
  have hattrs : Json.asMap AttrKeyShareDto.fromJson
      (.obj (HashMap.mapValues AttrKeyShareDto.toJson dto.attributes)) = .ok dto.attributes.iter :=
    Json.asMap_mapValues fun e _ => AttrKeyShareDto.fromJson_toJson e.2
  rw [fromJson, hfields]
  simp only [ok_bind, Json.asStr_str, hattrs, HashMap.collect_iter]

/-- The indices on a path fit the type `usize`. -/
theorem LeafCiphertextDto.fromJson_toJson {dto : LeafCiphertextDto} (h : ∀ i ∈ dto.path, i < 2 ^ 64) :
    fromJson dto.toJson = .ok dto := by
  have hfields : Json.structFields ["path", "attribute", "cy", "cy_prime"] dto.toJson =
      .ok [_, _, _, _] := Json.structFields_obj rfl (by decide)
  have hpath : Json.asSeq (Json.asUnsigned 64) (.arr (dto.path.map .num)) = .ok dto.path :=
    Json.asSeq_map fun i hi => Json.asUnsigned_num (h i hi)
  rw [fromJson, hfields]
  simp only [ok_bind, Json.asStr_str, hpath]

theorem AbeCiphertextDto.fromJson_toJson {dto : AbeCiphertextDto} (htree : dto.tree.ThresholdsFit)
    (hleaves : ∀ l ∈ dto.leaves, ∀ i ∈ l.path, i < 2 ^ 64) : fromJson dto.toJson = .ok dto := by
  have hfields : Json.structFields ["tree", "c", "leaves", "wrapped_key"] dto.toJson =
      .ok [_, _, _, _] := Json.structFields_obj rfl (by decide)
  have hseq : Json.asSeq LeafCiphertextDto.fromJson
      (.arr (dto.leaves.map LeafCiphertextDto.toJson)) = .ok dto.leaves :=
    Json.asSeq_map fun l hl => LeafCiphertextDto.fromJson_toJson (hleaves l hl)
  rw [fromJson, hfields]
  simp only [ok_bind, Json.asStr_str, hseq, AccessTree.fromJson_toJson _ htree,
    WrappedKeyDto.fromJson_toJson]

/-- A structure of strings. -/
theorem depth_obj_strs {members : List (String × Json)} (h : ∀ m ∈ members, ∃ s, m.2 = .str s) :
    (Json.obj members).depth ≤ 1 :=
  Json.depth_obj_le.2 fun m hm => by
    obtain ⟨s, hs⟩ := h m hm
    rw [hs]
    exact le_rfl

theorem SetupBundleDto.depth_toJson (dto : SetupBundleDto) : dto.toJson.depth ≤ 3 := by
  have hcommitment : ∀ c : AttrCommitmentDto, c.toJson.depth ≤ 1 := fun c =>
    depth_obj_strs (List.forall_mem_cons.2 ⟨⟨_, rfl⟩, List.forall_mem_singleton.2 ⟨_, rfl⟩⟩)
  exact Json.depth_obj_le.2 (List.forall_mem_cons.2 ⟨Nat.zero_le _, List.forall_mem_cons.2
    ⟨Nat.zero_le _,
      List.forall_mem_singleton.2 (Json.depth_obj_mapValues hcommitment dto.attributes)⟩⟩)

theorem UserSecretKeyDto.depth_toJson (dto : UserSecretKeyDto) : dto.toJson.depth ≤ 3 := by
  have hshare : ∀ s : AttrKeyShareDto, s.toJson.depth ≤ 1 := fun s =>
    depth_obj_strs (List.forall_mem_cons.2 ⟨⟨_, rfl⟩, List.forall_mem_singleton.2 ⟨_, rfl⟩⟩)
  exact Json.depth_obj_le.2 (List.forall_mem_cons.2 ⟨Nat.zero_le _, List.forall_mem_cons.2
    ⟨Nat.zero_le _,
      List.forall_mem_singleton.2 (Json.depth_obj_mapValues hshare dto.attributes)⟩⟩)

section Files

variable (hC : C.ReadsBack) (hX : D.HexReadsBack)
include hC hX

/-- **A stored setup bundle is read back**, the parameters being those of a deployment. -/
theorem setupBundleFromJson_toJson {pp : PublicParams G₁ G₂ Gₜ} {msk : MasterSecret F}
    (hpp : pp = { g1 := C.g1, g2 := C.g2, h := msk.beta • C.g1,
                  eggAlpha := msk.alpha • C.pairing C.g1 C.g2, attributes := pp.attributes })
    (hread : D.fromStr (setupBundleToJson C D pp msk) = .ok (setupBundleDto C D pp msk).toJson) :
    setupBundleFromJson C D (setupBundleToJson C D pp msk) = .ok (pp, msk) := by
  have hattrs : HashMap.insertAll (commitmentOfDto C D) (setupBundleDto C D pp msk).attributes.iter ∅ =
      .ok pp.attributes := HashMap.insertAll_mapValues (commitmentOfDto_dto hC hX)
  rw [setupBundleFromJson, hread]
  simp only [ok_bind, SetupBundleDto.fromJson_toJson, Outcome.ofExcept_ok, hattrs]
  simp only [setupBundleDto, scalarFromHex_toHex hC hX, ok_bind]
  rw [← hpp]

/-- **A stored key is read back.** -/
theorem userKeyFromJson_toJson {usk : UserSecretKey G₂}
    (hread : D.fromStr (userKeyToJson C D usk) = .ok (userKeyDto C D usk).toJson) :
    userKeyFromJson C D (userKeyToJson C D usk) = .ok usk := by
  have hattrs : HashMap.insertAll (keyShareOfDto C D) (userKeyDto C D usk).attributes.iter ∅ =
      .ok usk.attributes := HashMap.insertAll_mapValues (keyShareOfDto_dto hC hX)
  rw [userKeyFromJson, hread]
  simp only [ok_bind, UserSecretKeyDto.fromJson_toJson, Outcome.ofExcept_ok, hattrs]
  simp only [userKeyDto, g2FromHex_toHex hC hX, ok_bind]

/-- **A stored ciphertext is read back.** -/
theorem ciphertextFromJson_toJson {ct : AbeCiphertext G₁} (htree : ct.tree.ThresholdsFit)
    (hleaves : ∀ l ∈ ct.leaves, ∀ i ∈ l.path, i < 2 ^ 64)
    (hread : D.fromStr (ciphertextToJson C D ct) = .ok (ciphertextDto C D ct).toJson) :
    ciphertextFromJson C D (ciphertextToJson C D ct) = .ok ct := by
  have hdto : AbeCiphertextDto.fromJson (ciphertextDto C D ct).toJson = .ok (ciphertextDto C D ct) :=
    AbeCiphertextDto.fromJson_toJson htree (by simpa [ciphertextDto, leafDto] using hleaves)
  have hall : Outcome.mapList (leafOfDto C D) (ciphertextDto C D ct).leaves = .ok ct.leaves :=
    Outcome.mapList_map (leafOfDto_dto hC hX) ct.leaves
  rw [ciphertextFromJson, hread]
  simp only [ok_bind, hdto, Outcome.ofExcept_ok, hall]
  simp only [ciphertextDto, dec_enc hX, g1FromHex_toHex hC hX, ok_bind, ByteArr.ofBytes?_val,
    Outcome.okOr_some]

end Files

end SecureABE.Core
