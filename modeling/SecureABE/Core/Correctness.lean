import SecureABE.Core.Operations
import SecureABE.Core.Ideal

/-!
# Decryption inverts encryption

A key minted at some point of a deployment opens a ciphertext made at a later point exactly when its
attributes satisfy the tree: the recombined scalar is `r * s` (`recovered_eq`), which cancels the
blinding term of `d` (`pairing_c_d`).
-/

namespace SecureABE.Core

open Rust SecureABE.Policy

variable {F G₁ G₂ Gₜ : Type} [Field F] [AddCommGroup G₁] [Module F G₁] [AddCommGroup G₂] [Module F G₂]
  [AddCommGroup Gₜ] [Module F Gₜ] [DecidableEq F]
variable {C : Curve F G₁ G₂ Gₜ} {A : Cipher} {D : Codec}

/-- Decryption with a blinding value that gives the right key returns the wrapped key. -/
theorem decryptKey_of_kdf_eq (hA : A.Correct) {pp pp' : PublicParams G₁ G₂ Gₜ} {dek : ByteArr 32}
    {tree : AccessTree} {s : F} {rng : Rng F} {ct : AbeCiphertext G₁}
    (hct : Encrypted C A D pp dek tree s rng ct) {usk : UserSecretKey G₂} {blinding : Gₜ}
    (h : recoverBlinding C usk ct = .ok blinding)
    (hkdf : kdf C A blinding = kdf C A (s • pp.eggAlpha)) :
    decryptKey C A D pp' usk ct = .ok dek := by
  obtain ⟨aad, haad, hwrap⟩ := hct.wrappedKey
  have hopen := hA.decrypt_encrypt _ _ _ _ _ hwrap
  simp only [decryptKey, h, hkdf, hct.tree_eq, haad, bind, Except.bind, hopen, Outcome.okOr_some]
  rw [ByteArr.ofBytes?, dif_pos dek.2]
  rfl

/-- Decryption with the right blinding value returns the wrapped key. -/
theorem decryptKey_of_blinding (hA : A.Correct) {pp pp' : PublicParams G₁ G₂ Gₜ} {dek : ByteArr 32}
    {tree : AccessTree} {s : F} {rng : Rng F} {ct : AbeCiphertext G₁}
    (hct : Encrypted C A D pp dek tree s rng ct) {usk : UserSecretKey G₂}
    (h : recoverBlinding C usk ct = .ok (s • pp.eggAlpha)) :
    decryptKey C A D pp' usk ct = .ok dek :=
  decryptKey_of_kdf_eq hA hct h rfl

/-- Decryption without a blinding value fails with the error of the recombination. -/
theorem decryptKey_of_err {pp : PublicParams G₁ G₂ Gₜ} {ct : AbeCiphertext G₁}
    {usk : UserSecretKey G₂} {e : AbeError} (h : recoverBlinding C usk ct = Outcome.err e) :
    decryptKey C A D pp usk ct = Outcome.err e := by
  rw [decryptKey, h]
  rfl

/-- Decryption with a blinding value that gives another key fails, where the encryption opens under the
right key only. -/
theorem decryptKey_of_kdf_ne (hbind : A.Binding) {pp pp' : PublicParams G₁ G₂ Gₜ} {dek : ByteArr 32}
    {tree : AccessTree} {s : F} {rng : Rng F} {ct : AbeCiphertext G₁}
    (hct : Encrypted C A D pp dek tree s rng ct) {usk : UserSecretKey G₂} {blinding : Gₜ}
    (h : recoverBlinding C usk ct = .ok blinding)
    (hne : kdf C A blinding ≠ kdf C A (s • pp.eggAlpha)) :
    decryptKey C A D pp' usk ct = Outcome.err .policyNotSatisfied := by
  obtain ⟨aad, haad, hwrap⟩ := hct.wrappedKey
  have hreject := hbind.decrypt_eq_none _ _ _ _ _ hwrap (kdf C A blinding) ct.wrappedKey.nonce aad
    fun heq => hne (congrArg Prod.fst heq)
  rw [decryptKey, h, hct.tree_eq]
  simp only [haad, ok_bind, hreject]
  rfl

/-- The blinding value that a minted key recovers. -/
theorem recoverBlinding_minted {n : ℕ} (hF : IndicesDistinct F n) {msk : MasterSecret F}
    (hbeta : msk.beta ≠ 0) {pp pp' : PublicParams G₁ G₂ Gₜ} (hpp : Deployed C msk pp)
    (hpp' : Deployed C msk pp') (hext : Extends pp pp') {attrs : List String} {r : F}
    {usk : UserSecretKey G₂} (husk : Minted pp msk attrs r usk) {dek : ByteArr 32}
    {tree : AccessTree} (hpos : tree.Positive) (htree : tree.ChildrenLt n) {s : F} {rng : Rng F}
    {ct : AbeCiphertext G₁} (hct : Encrypted C A D pp' dek tree s rng ct) :
    recoverBlinding C usk ct =
      if tree.isSatisfiedBy attrs then .ok (s • pp'.eggAlpha)
      else Outcome.err .policyNotSatisfied := by
  have hrho : ∀ a, (fun a => if a ∈ attrs then some r else none) a =
      if a ∈ attrs then some r else none := fun a => rfl
  rw [recoverBlinding_eq hF hpp' htree hct (husk.exponents.mono hext),
    recovered_eq hF hrho hpos htree s rng]
  by_cases hsat : tree.isSatisfiedBy attrs
  · rw [if_pos hsat, if_pos hsat]
    simp only
    rw [hct.c_eq, husk.d, pairing_c_d hbeta hpp hpp', mul_comm r s, add_sub_cancel_right]
  · rw [if_neg hsat, if_neg hsat]

/-! ## Keys of other deployments -/

omit [DecidableEq F] [AddCommGroup G₁] [Module F G₁] [AddCommGroup Gₜ] [Module F Gₜ] in
theorem keygenLoop_zero {pp : PublicParams G₁ G₂ Gₜ} {attrs : List String}
    {keys keys' : HashMap String (AttributeKeyShare G₂)} {rng : Rng F}
    (hkeys : ∀ a share, keys.lookup a = some share → share = ⟨0, 0⟩)
    (h : keygenLoop pp (0 : F) attrs keys (fun _ => 0) = .ok (keys', rng)) :
    ∀ a share, keys'.lookup a = some share → share = ⟨0, 0⟩ := by
  induction attrs generalizing keys with
  | nil =>
    obtain ⟨rfl, -⟩ := Prod.mk.inj (Except.ok.inj h)
    exact hkeys
  | cons a attrs ih =>
    obtain ⟨c, -, h⟩ := bind_eq_ok.1 h
    refine ih (fun b share hb => ?_) h
    by_cases hba : b = a
    · subst hba
      rw [AList.lookup_insert] at hb
      rw [← Option.some.inj hb]
      simp
    · exact hkeys b share (by rwa [AList.lookup_insert_ne hba] at hb)

omit [AddCommGroup G₁] [Module F G₁] [AddCommGroup Gₜ] [Module F Gₜ] in
/-- A key that is made with zeros fits the parameters of every deployment that knows its names. -/
theorem exponents_of_keygen_zero {pp pp' : PublicParams G₁ G₂ Gₜ} {msk : MasterSecret F}
    {subject : String} {attrs : List String} {usk : UserSecretKey G₂} {rng : Rng F}
    (h : keygen pp msk subject attrs (fun _ => 0) = .ok (usk, rng))
    (hattrs : ∀ a ∈ attrs, a ∈ pp'.attributes) :
    Exponents pp' usk (fun a => if a ∈ attrs then some (0 : F) else none) := by
  obtain ⟨hbeta, -, hminted⟩ := minted_of_keygen_eq_ok h
  have hzero : ∀ a share, usk.attributes.lookup a = some share → share = ⟨0, 0⟩ := by
    have hfind : attrs.find? (fun a => decide (a ∉ pp.attributes)) = none := by
      simpa using mem_of_keygen_eq_ok h
    have hinv : invert msk.beta = some msk.beta⁻¹ := if_neg hbeta
    simp only [keygen, hfind, hinv, Outcome.expect_some, ok_bind] at h
    obtain ⟨⟨keys, rng'⟩, hloop, hret⟩ := bind_eq_ok.1 h
    obtain ⟨rfl, -⟩ := Prod.mk.inj (Except.ok.inj hret)
    exact keygenLoop_zero (by simp [AList.lookup_empty]) hloop
  intro a
  dsimp only
  by_cases ha : a ∈ attrs
  · obtain ⟨share, hshare⟩ := HashMap.exists_lookup_of_mem ((hminted.mem a).2 ha)
    obtain ⟨c, hc⟩ := HashMap.exists_lookup_of_mem (hattrs a ha)
    obtain rfl := hzero a share hshare
    rw [if_pos ha, hshare]
    exact Option.Rel.some ⟨c, 0, hc, by simp⟩
  · have hnone : usk.attributes.lookup a = none :=
      AList.lookup_eq_none.2 fun hmem => ha ((hminted.mem a).1 hmem)
    rw [if_neg ha, hnone]
    exact Option.Rel.none

/-- The blinding value that such a key recovers from a ciphertext of another secret. -/
theorem recoverBlinding_of_keygen_zero {n : ℕ} (hF : IndicesDistinct F n)
    {pp pp' : PublicParams G₁ G₂ Gₜ} {msk msk' : MasterSecret F} (hpp : Deployed C msk pp)
    (hpp' : Deployed C msk' pp') {subject : String} {attrs : List String} {usk : UserSecretKey G₂}
    {keyRng : Rng F} (h : keygen pp msk subject attrs (fun _ => 0) = .ok (usk, keyRng))
    (hattrs : ∀ a ∈ attrs, a ∈ pp'.attributes) {dek : ByteArr 32} {tree : AccessTree}
    (hpos : tree.Positive) (htree : tree.ChildrenLt n) (hsat : tree.isSatisfiedBy attrs = true) {s : F}
    {rng : Rng F} {ct : AbeCiphertext G₁} (hct : Encrypted C A D pp' dek tree s rng ct) :
    recoverBlinding C usk ct =
      .ok ((s * msk'.beta * (msk.alpha * msk.beta⁻¹)) • C.pairing C.g1 C.g2) := by
  have hrho : ∀ a, (fun a => if a ∈ attrs then some (0 : F) else none) a =
      if a ∈ attrs then some (0 : F) else none := fun a => rfl
  rw [recoverBlinding_eq hF hpp' htree hct (exponents_of_keygen_zero h hattrs),
    recovered_eq hF hrho hpos htree s rng, if_pos hsat]
  simp only
  rw [hct.c_eq, (minted_of_keygen_eq_ok h).2.2.d, hpp'.h, hpp.g2]
  simp only [map_smul, LinearMap.smul_apply, smul_smul, zero_mul, zero_smul, sub_zero, add_zero]
  rw [mul_comm (msk.alpha * msk.beta⁻¹)]

/-- **Correctness of the scheme**: after a setup and any registrations a key is made, after any
further ones a ciphertext, and the key opens the ciphertext if and only if its attributes satisfy
the tree. The bound on the children of a gate is the one of a `Vec`. -/
theorem decryptKey_encryptKey {p : ℕ} [CharP F p] (hp : 2 ^ 64 < p) (hA : A.Correct)
    (setupRng : Rng F) (hbeta : (setup C setupRng).1.2.beta ≠ 0)
    (registered : List (String × Rng F)) {subject : String} {attrs : List String} {keyRng keyRng' : Rng F}
    {usk : UserSecretKey G₂}
    (hkey : keygen (registerAll (setup C setupRng).1.1 registered) (setup C setupRng).1.2 subject attrs
      keyRng = .ok (usk, keyRng'))
    (later : List (String × Rng F)) {tree : AccessTree} (hpos : tree.Positive)
    (hlen : tree.ChildrenLt (2 ^ 64))
    (hleaves : ∀ a ∈ tree.leaves,
      a ∈ (registerAll (registerAll (setup C setupRng).1.1 registered) later).attributes)
    (dek : ByteArr 32) (rng : Rng F) (nonce : ByteArr 12) :
    ∃ ct rng', encryptKey C A D (registerAll (registerAll (setup C setupRng).1.1 registered) later)
        dek tree rng nonce = .ok (ct, rng') ∧
      decryptKey C A D (registerAll (registerAll (setup C setupRng).1.1 registered) later) usk ct =
        if tree.isSatisfiedBy attrs then .ok dek else Outcome.err .policyNotSatisfied := by
  have hpp := (deployed_setup C setupRng).registerAll registered
  have hpp' := hpp.registerAll later
  have hext := extends_registerAll (registerAll (setup C setupRng).1.1 registered) later
  have hF : IndicesDistinct F (2 ^ 64) := IndicesDistinct.of_charP hp.le
  obtain ⟨usk', rng₁, hrun, -, hminted⟩ :=
    keygen_spec hbeta subject (mem_of_keygen_eq_ok hkey) keyRng
  obtain ⟨rfl, -⟩ := Prod.mk.inj (Except.ok.inj (hkey.symm.trans hrun))
  obtain ⟨ct, hct, henc⟩ := encryptKey_spec C D hA dek hleaves rng nonce
  refine ⟨ct, _, hct, ?_⟩
  have hblinding := recoverBlinding_minted hF hbeta hpp hpp' hext hminted hpos hlen henc
  by_cases hsat : tree.isSatisfiedBy attrs
  · rw [if_pos hsat] at hblinding ⊢
    exact decryptKey_of_blinding hA henc hblinding
  · rw [if_neg hsat] at hblinding ⊢
    exact decryptKey_of_err hblinding

/-- A deployment for examples: all scalars of the setup are one. -/
def exampleSetup : (PublicParams Scalar Scalar Scalar × MasterSecret Scalar) × Rng Scalar :=
  setup exponents fun _ => 1

theorem exampleSetup_beta : exampleSetup.1.2.beta ≠ 0 := (one_ne_zero : (1 : Scalar) ≠ 0)

/-- Its registrations before a key is made, and after. -/
def exampleCalls : List (String × Rng Scalar) := [("a", fun _ => (2 : ℕ)), ("b", fun _ => (3 : ℕ))]

def exampleLater : List (String × Rng Scalar) := [("c", fun _ => (4 : ℕ))]

def exampleTree : AccessTree := .gate 2 [.leaf "a", .leaf "b", .leaf "c"]

def exampleDek : ByteArr 32 := ⟨List.replicate 32 0, rfl⟩

theorem exists_exampleKey : ∃ usk rng, keygen (registerAll exampleSetup.1.1 exampleCalls)
    exampleSetup.1.2 "alice" ["a", "b"] (fun _ => 5) = .ok (usk, rng) := by
  obtain ⟨usk, rng, h, -⟩ := keygen_spec exampleSetup_beta "alice"
    (fun a ha => (mem_registerAll exampleSetup.1.1 exampleCalls a).2 (Or.inl ha))
    (fun _ => (5 : Scalar))
  exact ⟨usk, rng, h⟩

theorem exampleTree_leaves : ∀ a ∈ exampleTree.leaves,
    a ∈ (registerAll (registerAll exampleSetup.1.1 exampleCalls) exampleLater).attributes := by
  intro a ha
  rw [mem_registerAll, mem_registerAll]
  simp only [exampleTree, AccessTree.leaves_gate] at ha
  simp only [exampleCalls, exampleLater]
  simp at ha ⊢
  tauto

/-- Two of three attributes, one of them registered after the key was made. -/
theorem decryptKey_encryptKey_two_of_three :
    ∃ usk keyRng ct rng, keygen (registerAll exampleSetup.1.1 exampleCalls) exampleSetup.1.2 "alice"
        ["a", "b"] (fun _ => 5) = .ok (usk, keyRng) ∧
      encryptKey exponents boxes serdeJson
        (registerAll (registerAll exampleSetup.1.1 exampleCalls) exampleLater) exampleDek exampleTree
        (fun _ => 7) ⟨List.replicate 12 0, rfl⟩ = .ok (ct, rng) ∧
      decryptKey exponents boxes serdeJson
        (registerAll (registerAll exampleSetup.1.1 exampleCalls) exampleLater) usk ct =
          .ok exampleDek := by
  obtain ⟨usk, keyRng, hkey⟩ := exists_exampleKey
  obtain ⟨ct, rng, hct, hdec⟩ := decryptKey_encryptKey (by norm_num : 2 ^ 64 < scalarModulus)
    correct_boxes (fun _ => 1) exampleSetup_beta exampleCalls hkey exampleLater
    (by decide : exampleTree.Positive) (by decide) exampleTree_leaves exampleDek (fun _ => 7)
    ⟨List.replicate 12 0, rfl⟩
  exact ⟨usk, keyRng, ct, rng, hkey, hct, hdec⟩

end SecureABE.Core
