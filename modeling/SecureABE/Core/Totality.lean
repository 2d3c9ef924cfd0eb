import SecureABE.Core.Ideal
import SecureABE.Core.Operations

/-!
# Recombination on hostile ciphertexts

`decrypt_key` runs recombination on a tree and on leaves that anyone may have written.

* `satisfiedByPaths` is the satisfaction check of a tree by full count, a leaf being held if its path
  is among given ones.
* `recombine_agrees`: at any thresholds and on any map of leaf results, recombination does not panic,
  leaves the path buffer as it found it, and returns a value if and only if the paths of the map
  satisfy the tree. On a ciphertext of `encrypt_key` this is the check of the attributes of the key.
-/

namespace SecureABE.Core

open Rust SecureABE.Policy Threshold

variable {F G₁ G₂ Gₜ : Type} [Field F] [AddCommGroup G₁] [Module F G₁] [AddCommGroup G₂] [Module F G₂]
  [AddCommGroup Gₜ] [Module F Gₜ]

/-! ## Satisfaction by paths -/

mutual

/-- True if the leaves at the held paths satisfy the tree, which is at the given path. -/
def satisfiedByPaths (held : List ℕ → Bool) : AccessTree → List ℕ → Bool
  | .leaf _, path => held path
  | .gate threshold children, path => decide (threshold ≤ countByPaths held children 0 path)

/-- The number of satisfied children of a gate from the index `i` on. -/
def countByPaths (held : List ℕ → Bool) : List AccessTree → ℕ → List ℕ → ℕ
  | [], _, _ => 0
  | c :: cs, i, path =>
    (if satisfiedByPaths held c (path ++ [i + 1]) then 1 else 0) + countByPaths held cs (i + 1) path

end

/-- There is a recombined value if and only if the paths that have one satisfy the tree. -/
theorem isSome_recombined (lr : LeafResult Gₜ) (t : AccessTree) (path : List ℕ) :
    (recombined F t lr path).isSome = satisfiedByPaths (fun q => decide (q ∈ lr)) t path := by
  induction t using AccessTree.induct generalizing path with
  | leaf attr =>
    unfold recombined satisfiedByPaths
    rw [Bool.eq_iff_iff, decide_eq_true_eq]
    exact AList.lookup_isSome
  | gate k cs ih =>
    have hcount : ∀ i, (recombinedOf F cs lr i path).countP Option.isSome =
        countByPaths (fun q => decide (q ∈ lr)) cs i path := by
      induction cs with
      | nil => intro i; rfl
      | cons c cs ihcs =>
        intro i
        rw [recombinedOf, countByPaths, List.countP_cons, ih c (by simp),
          ihcs (fun d hd => ih d (by simp [hd])), Nat.add_comm]
    unfold recombined satisfiedByPaths
    rw [isSome_combine, hcount]

/-- Where the held paths are those of the shares of held attributes, the paths satisfy the tree if
and only if the attributes do. -/
theorem satisfiedByPaths_eq {held : List ℕ → Bool} {H : List String} {t : AccessTree} {s : F}
    {rng : Rng F} {path : List ℕ}
    (h : ∀ sh ∈ sharesAt t s rng path, held sh.path = decide (sh.attr ∈ H)) :
    satisfiedByPaths held t path = t.isSatisfiedBy H := by
  induction t using AccessTree.induct generalizing s rng path with
  | leaf a =>
    rw [satisfiedByPaths, AccessTree.isSatisfiedBy_leaf]
    exact h ⟨path, a, s⟩ (by simp [sharesAt])
  | gate k cs ih =>
    have hcount : ∀ (q : ℕ → F) (i : ℕ) (rng : Rng F),
        (∀ sh ∈ sharesOf cs q i rng path, held sh.path = decide (sh.attr ∈ H)) →
          countByPaths held cs i path = cs.countP (·.isSatisfiedBy H) := by
      clear h
      induction cs with
      | nil => intros; rfl
      | cons c cs ihcs =>
        intro q i rng h
        unfold sharesOf at h
        rw [countByPaths, List.countP_cons,
          ih c (by simp) fun sh hsh => h sh (List.mem_append_left _ hsh),
          ihcs (fun d hd => ih d (by simp [hd])) q (i + 1) (rng.drop (coeffCount c))
            fun sh hsh => h sh (List.mem_append_right _ hsh), Nat.add_comm]
    unfold sharesAt at h
    rw [satisfiedByPaths, AccessTree.isSatisfiedBy_gate, hcount _ _ _ h]

/-! ## The leaf results of a ciphertext -/

variable [DecidableEq F] {C : Curve F G₁ G₂ Gₜ} {A : Cipher} {D : Codec}

omit [DecidableEq F] in
/-- The leaf results of a ciphertext of `encrypt_key` are at the paths of the held attributes. -/
theorem mem_leafResultsOf {pp : PublicParams G₁ G₂ Gₜ} {dek : ByteArr 32} {tree : AccessTree} {s : F}
    {rng : Rng F} {ct : AbeCiphertext G₁} (hct : Encrypted C A D pp dek tree s rng ct)
    (usk : UserSecretKey G₂) {sh : Share F} (hsh : sh ∈ sharesAt tree s rng []) :
    sh.path ∈ leafResultsOf C usk ct.leaves ↔ sh.attr ∈ usk.attributeNames := by
  obtain ⟨leaf, hleaf, c, -, rfl⟩ := exists_leafOf hct.leaves hsh
  have hnd : (ct.leaves.map LeafCiphertext.path).Nodup :=
    map_path_leaves hct.leaves ▸ nodup_paths tree s rng []
  have hlookup := lookup_leafResultsOf C usk hnd hleaf
  rw [UserSecretKey.attributeNames, HashMap.mem_keys_iter, ← AList.lookup_isSome,
    ← AList.lookup_isSome]
  exact Bool.eq_iff_iff.1 ((congrArg Option.isSome hlookup).trans Option.isSome_map)

/-- **A ciphertext that is opened** has a tree that the attributes of the key satisfy, whatever the
components of the key are. -/
theorem isSatisfiedBy_of_decryptKey {n : ℕ} (hF : IndicesDistinct F n) {pp pp' : PublicParams G₁ G₂ Gₜ}
    {dek dek' : ByteArr 32} {tree : AccessTree} (htree : tree.ChildrenLt n) {s : F} {rng : Rng F}
    {ct : AbeCiphertext G₁} (hct : Encrypted C A D pp dek tree s rng ct) {usk : UserSecretKey G₂}
    (h : decryptKey C A D pp' usk ct = .ok dek') : tree.isSatisfiedBy usk.attributeNames = true := by
  obtain ⟨blinding, hblinding, -⟩ := bind_eq_ok.1 h
  obtain ⟨⟨root, path⟩, hroot, hrest⟩ := bind_eq_ok.1 hblinding
  obtain ⟨fRoot, hsome, -⟩ := bind_eq_ok.1 hrest
  rw [hct.tree_eq, recombine_eq hF htree] at hroot
  obtain ⟨rfl, -⟩ := Prod.mk.inj (Except.ok.inj hroot)
  have hheld : satisfiedByPaths (fun q => decide (q ∈ leafResultsOf C usk ct.leaves)) tree [] =
      tree.isSatisfiedBy usk.attributeNames :=
    satisfiedByPaths_eq fun sh hsh => decide_eq_decide.2 (mem_leafResultsOf hct usk hsh)
  rw [← hheld, ← isSome_recombined (F := F), Outcome.okOr_eq_ok.1 hsome]
  rfl

/-- **Recombination is total and agrees with the pre-flight check.** The bound on the children of a
gate is the one of a `Vec`. -/
theorem recombine_agrees {p : ℕ} [CharP F p] (hp : 2 ^ 64 < p) {tree : AccessTree}
    (htree : tree.ChildrenLt (2 ^ 64)) (C : Curve F G₁ G₂ Gₜ) (A : Cipher) (D : Codec) :
    (∀ (leafResults : LeafResult Gₜ) (path : List ℕ), ∃ val,
      (recombine F tree leafResults path : Outcome AbeError _) = .ok (val, path) ∧
      (val.isSome ↔ satisfiedByPaths (fun q => decide (q ∈ leafResults)) tree path)) ∧
    ∀ (pp : PublicParams G₁ G₂ Gₜ) (dek : ByteArr 32) (rng rng' : Rng F) (nonce : ByteArr 12)
      (ct : AbeCiphertext G₁) (usk : UserSecretKey G₂),
      encryptKey C A D pp dek tree rng nonce = .ok (ct, rng') →
        ct.tree = tree ∧
        satisfiedByPaths (fun q => decide (q ∈ leafResultsOf C usk ct.leaves)) ct.tree [] =
          tree.isSatisfiedBy usk.attributeNames := by
  have hF : IndicesDistinct F (2 ^ 64) := IndicesDistinct.of_charP hp.le
  refine ⟨fun lr path => ⟨recombined F tree lr path, recombine_eq hF htree lr path, ?_⟩, ?_⟩
  · rw [isSome_recombined]
  · intro pp dek rng rng' nonce ct usk henc
    have hct := encrypted_of_eq_ok henc
    refine ⟨hct.tree_eq, ?_⟩
    rw [hct.tree_eq]
    have hheld : ∀ sh ∈ sharesAt tree (rng 0) (rng.drop 1) [],
        decide (sh.path ∈ leafResultsOf C usk ct.leaves) = decide (sh.attr ∈ usk.attributeNames) :=
      fun sh hsh => decide_eq_decide.2 (mem_leafResultsOf hct usk hsh)
    exact satisfiedByPaths_eq hheld

/-- A tree with a threshold of zero, one above the number of children and an empty gate. -/
def hostileTree : AccessTree := .gate 1 [.gate 3 [.leaf "a"], .gate 0 [.leaf "b"], .gate 1 []]

/-- Two of its leaves are held. -/
def heldLeaves : LeafResult Scalar := AList.insert [7, 1, 1] 2 (AList.insert [7, 2, 1] 3 ∅)

/-- It is satisfied with these leaves, and a ciphertext under it is checked by the attributes of any key. -/
theorem recombine_agrees_hostileTree :
    (∃ val, (recombine Scalar hostileTree heldLeaves [7] : Outcome AbeError _) = .ok (val, [7]) ∧
      (val.isSome ↔ satisfiedByPaths (fun q => decide (q ∈ heldLeaves)) hostileTree [7])) ∧
    ∃ pp dek nonce ct rng', encryptKey exponents boxes serdeJson pp dek hostileTree (fun _ => 1) nonce =
        .ok (ct, rng') ∧
      ∀ usk : UserSecretKey Scalar,
        satisfiedByPaths (fun q => decide (q ∈ leafResultsOf exponents usk ct.leaves)) ct.tree [] =
          hostileTree.isSatisfiedBy usk.attributeNames := by
  have hagrees := recombine_agrees (by norm_num : 2 ^ 64 < scalarModulus)
    (by decide : hostileTree.ChildrenLt (2 ^ 64)) exponents boxes serdeJson
  refine ⟨hagrees.1 heldLeaves [7], ?_⟩
  let calls : List (String × Rng Scalar) := [("a", fun _ => 1), ("b", fun _ => 1)]
  have hleaves : ∀ a ∈ hostileTree.leaves,
      a ∈ (registerAll (setup exponents fun _ => 1).1.1 calls).attributes :=
    fun a ha => (mem_registerAll _ calls a).2 (Or.inl ha)
  obtain ⟨ct, hct, -⟩ := encryptKey_spec exponents serdeJson correct_boxes ⟨List.replicate 32 0, rfl⟩ hleaves
    (fun _ => 1) ⟨List.replicate 12 0, rfl⟩
  exact ⟨_, _, _, ct, _, hct, fun usk => (hagrees.2 _ _ _ _ _ ct usk hct).2⟩

end SecureABE.Core
