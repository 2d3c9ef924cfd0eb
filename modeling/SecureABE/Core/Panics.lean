import SecureABE.Foundations.Panics
import SecureABE.Core.Codec
import SecureABE.Core.Operations

/-!
# Panics of the scheme

Where the `expect`s of `core` fail. Decoding never panics, and neither does encryption; key generation
does exactly if `beta` is zero and its attributes are registered (`keygen_eq_panic_iff`); decryption does
not, on trees whose indices are different in the field (`calm_decryptKey`).
-/

namespace SecureABE.Core

open Rust Rust.Outcome SecureABE.Policy

variable {F G₁ G₂ Gₜ : Type} [Field F] [DecidableEq F] [AddCommGroup G₁] [Module F G₁]
  [AddCommGroup G₂] [Module F G₂] [AddCommGroup Gₜ] [Module F Gₜ]

/-! ## Decoding -/

section Decoding

variable (C : Curve F G₁ G₂ Gₜ) (D : Codec)

theorem calm_dec (s : String) : (dec D s).Calm := calm_ofExcept _ _

theorem calm_fromHex {α : Type} (n : ℕ) (badLength invalid : String) (decode : ByteArr n → Option α)
    (s : String) : (fromHex D n badLength invalid decode s).Calm := by
  refine (calm_dec D s).bind fun bytes _ => ?_
  refine (calm_okOr _ _).bind fun arr _ => ?_
  exact calm_okOr _ _

theorem calm_insertAll {V W : Type} {f : V → Outcome AbeError W} (h : ∀ v, (f v).Calm)
    (l : List (String × V)) (m : HashMap String W) : (HashMap.insertAll f l m).Calm := by
  induction l generalizing m with
  | nil => exact calm_ok m
  | cons e l ih => exact (h e.2).bind fun w _ => ih (m.insert e.1 w)

omit [DecidableEq F]

theorem calm_commitmentOfDto (dto : AttrCommitmentDto) : (commitmentOfDto C D dto).Calm := by
  refine (calm_fromHex D _ _ _ _ _).bind fun t1 _ => ?_
  refine (calm_fromHex D _ _ _ _ _).bind fun t2 _ => ?_
  exact calm_ok _

theorem calm_setupBundleFromJson (s : String) : (setupBundleFromJson C D s).Calm := by
  refine (calm_ofExcept _ _).bind fun dto _ => ?_
  refine (calm_fromHex D _ _ _ _ _).bind fun alpha _ => ?_
  refine (calm_fromHex D _ _ _ _ _).bind fun beta _ => ?_
  refine (calm_insertAll (calm_commitmentOfDto C D) _ ∅).bind fun attributes _ => ?_
  exact calm_ok _

theorem calm_keyShareOfDto (dto : AttrKeyShareDto) : (keyShareOfDto C D dto).Calm := by
  refine (calm_fromHex D _ _ _ _ _).bind fun dJ _ => ?_
  refine (calm_fromHex D _ _ _ _ _).bind fun dJPrime _ => ?_
  exact calm_ok _

theorem calm_userKeyFromJson (s : String) : (userKeyFromJson C D s).Calm := by
  refine (calm_ofExcept _ _).bind fun dto _ => ?_
  refine (calm_insertAll (calm_keyShareOfDto C D) _ ∅).bind fun attributes _ => ?_
  refine (calm_fromHex D _ _ _ _ _).bind fun d _ => ?_
  exact calm_ok _

theorem calm_leafOfDto (l : LeafCiphertextDto) : (leafOfDto C D l).Calm := by
  refine (calm_fromHex D _ _ _ _ _).bind fun cy _ => ?_
  refine (calm_fromHex D _ _ _ _ _).bind fun cyPrime _ => ?_
  exact calm_ok _

theorem calm_ciphertextFromJson (s : String) : (ciphertextFromJson C D s).Calm := by
  refine (calm_ofExcept _ _).bind fun dto _ => ?_
  refine (PanicsIn.mapList fun l _ => calm_leafOfDto C D l).bind fun leaves _ => ?_
  refine (calm_dec D _).bind fun nonceBytes _ => ?_
  refine (calm_okOr _ _).bind fun nonce _ => ?_
  refine (calm_fromHex D _ _ _ _ _).bind fun c _ => ?_
  refine (calm_dec D _).bind fun ciphertext _ => ?_
  exact calm_ok _

end Decoding

/-! ## Keys and ciphertexts -/

omit [AddCommGroup G₁] [Module F G₁] [AddCommGroup Gₜ] [Module F Gₜ] in
/-- **Key generation panics** exactly on registered attributes and a `beta` that is zero. -/
theorem keygen_eq_panic_iff {pp : PublicParams G₁ G₂ Gₜ} {msk : MasterSecret F} {subject : String}
    {attrs : List String} {rng : Rng F} {msg : String} :
    keygen pp msk subject attrs rng = .error (.panic msg) ↔
      (∀ a ∈ attrs, a ∈ pp.attributes) ∧ msk.beta = 0 ∧ msg = "beta is sampled nonzero w.o.p." := by
  cases hfind : attrs.find? (fun a => decide (a ∉ pp.attributes)) with
  | some a =>
    have hmem := List.mem_of_find?_eq_some hfind
    have hnot : a ∉ pp.attributes := by simpa using List.find?_some hfind
    rw [keygen, hfind]
    exact iff_of_false (calm_err _ msg) fun h => hnot (h.1 a hmem)
  | none =>
    have hattrs : ∀ a ∈ attrs, a ∈ pp.attributes := by
      simpa using List.find?_eq_none.1 hfind
    by_cases hbeta : msk.beta = 0
    · have hinv : invert msk.beta = none := if_pos hbeta
      simp only [keygen, hfind, hinv]
      change (Except.error (Failure.panic _) : Outcome _ _) = _ ↔ _
      constructor
      · intro h
        cases h
        exact ⟨hattrs, hbeta, rfl⟩
      · rintro ⟨-, -, rfl⟩
        rfl
    · obtain ⟨usk, rng', hrun, -⟩ := keygen_spec hbeta subject hattrs rng
      rw [hrun]
      exact iff_of_false (calm_ok _ msg) fun h => hbeta h.2.1

variable (C : Curve F G₁ G₂ Gₜ) (A : Cipher) (D : Codec)

omit [DecidableEq F] in
/-- Encryption never panics: the tree is checked against the registered attributes first. -/
theorem calm_encryptKey (pp : PublicParams G₁ G₂ Gₜ) (dek : ByteArr 32) (tree : AccessTree) (rng : Rng F)
    (nonce : ByteArr 12) : (encryptKey C A D pp dek tree rng nonce).Calm := by
  cases hfind : tree.leaves.find? (fun a => decide (a ∉ pp.attributes)) with
  | some a =>
    rw [encryptKey, hfind]
    exact calm_err _
  | none =>
    have htree : ∀ a ∈ tree.leaves, a ∈ pp.attributes := by
      simpa using List.find?_eq_none.1 hfind
    obtain ⟨leaves, -, heq⟩ := encryptKey_eq C D A dek htree rng nonce
    rw [heq]
    exact (calm_okOr _ _).bind fun _ _ => calm_ok _

/-- Decryption does not panic, whatever the key and the ciphertext are. -/
theorem calm_decryptKey {n : ℕ} (hF : IndicesDistinct F n) (pp : PublicParams G₁ G₂ Gₜ)
    (usk : UserSecretKey G₂) {ct : AbeCiphertext G₁} (hct : ct.tree.ChildrenLt n) :
    (decryptKey C A D pp usk ct).Calm := by
  have hrecover : (recoverBlinding C usk ct).Calm := by
    have hroot : (recombine F ct.tree (leafResultsOf C usk ct.leaves) [] : Outcome AbeError _).Calm := by
      rw [recombine_eq hF hct]
      exact calm_ok _
    exact hroot.bind fun _ _ => (calm_okOr _ _).bind fun _ _ => calm_ok _
  refine hrecover.bind fun blinding _ => ?_
  refine (calm_okOr _ _).bind fun plaintext _ => ?_
  exact calm_okOr _ _

end SecureABE.Core
