import SecureABE.Cli.Tagging
import SecureABE.Core.Ideal
import SecureABE.Core.Operations
import SecureABE.Policy.Bounds
import SecureABE.Storage.Store

/-!
# Reading a package back

`put` writes the wrapped key with the access tree in it, three levels of JSON for each gate, and
reports success. The JSON library refuses to read more than 127 levels. So `get` returns the package
that was put exactly if the policy nests at most 41 gates (`get_put_iff`).
-/

namespace SecureABE.Storage

open Rust SecureABE.Core SecureABE.Envelope SecureABE.Policy SecureABE.Cli SecureABE.Revocation

variable {F G₁ G₂ Gₜ : Type} [Field F] [DecidableEq F] [AddCommGroup G₁] [Module F G₁]
  [AddCommGroup G₂] [Module F G₂] [AddCommGroup Gₜ] [Module F Gₜ]
variable {C : Curve F G₁ G₂ Gₜ} {A : Cipher} {D : Codec}

/-! ## Nesting -/

theorem depth_sealedDocument (doc : SealedDocument) : doc.toJson.depth ≤ 2 := by
  have hbytes : ∀ b : Bytes, (Json.arr (b.map fun b => .num b.toNat)).depth ≤ 1 := by
    intro b
    rw [Json.depth_arr_le]
    intro j hj
    obtain ⟨n, -, rfl⟩ := List.mem_map.1 hj
    exact le_rfl
  rw [SealedDocument.toJson, Json.depth_obj_le]
  simp only [List.forall_mem_cons]
  exact ⟨hbytes _, hbytes _, Nat.zero_le _, by simp⟩

theorem depth_leafDto (l : LeafCiphertextDto) : l.toJson.depth ≤ 2 := by
  rw [LeafCiphertextDto.toJson, Json.depth_obj_le]
  simp only [List.forall_mem_cons]
  refine ⟨?_, Nat.zero_le _, Nat.zero_le _, Nat.zero_le _, by simp⟩
  rw [Json.depth_arr_le]
  intro j hj
  obtain ⟨n, -, rfl⟩ := List.mem_map.1 hj
  exact le_rfl

/-- The tree is one level below the top, and nothing else is nested deeply. -/
theorem depth_ciphertextDto {dto : AbeCiphertextDto} (h : ∀ g ∈ dto.tree.gates, 1 ≤ g.2) :
    dto.toJson.depth < 128 ↔ dto.tree.gateDepth ≤ 41 := by
  have htree := AccessTree.depth_toJson dto.tree h
  have hleaves : (Json.arr (dto.leaves.map LeafCiphertextDto.toJson)).depth ≤ 3 := by
    rw [Json.depth_arr_le]
    intro j hj
    obtain ⟨l, -, rfl⟩ := List.mem_map.1 hj
    exact depth_leafDto l
  have hkey : dto.wrappedKey.toJson.depth = 1 := rfl
  have hdepth : dto.toJson.depth = 1 + max dto.tree.toJson.depth
      (max 0 (max (Json.arr (dto.leaves.map LeafCiphertextDto.toJson)).depth
        (max dto.wrappedKey.toJson.depth 0))) := rfl
  omega

/-! ## Files -/

theorem isName_sealed : Path.IsName "sealed.json" :=
  ⟨by decide, by decide, by decide, by decide⟩

theorem isName_key : Path.IsName "key_ciphertext.json" :=
  ⟨by decide, by decide, by decide, by decide⟩

theorem isName_manifest : Path.IsName "manifest.json" :=
  ⟨by decide, by decide, by decide, by decide⟩

namespace PackageStore

variable (store : PackageStore) (id : String)

theorem sealedPath_ne_keyPath : store.sealedPath id ≠ store.keyPath id := fun h =>
  absurd (Path.join_injective isName_sealed isName_key h) (by decide)

theorem sealedPath_ne_manifestPath : store.sealedPath id ≠ store.manifestPath id := fun h =>
  absurd (Path.join_injective isName_sealed isName_manifest h) (by decide)

theorem keyPath_ne_manifestPath : store.keyPath id ≠ store.manifestPath id := fun h =>
  absurd (Path.join_injective isName_key isName_manifest h) (by decide)

variable (originalFilename : String) (package : EncryptedPackage G₁) (stamp : Stamp) (d : Disk)

section

omit [DecidableEq F]

/-- The two files that `get` reads after `put`. -/
theorem lookup_sealed_afterPut :
    (store.afterPut C D originalFilename package stamp d).files.lookup
      (store.sealedPath (newId D stamp)) = some (sealedBytes D package) := by
  rw [afterPut, Disk.lookup_write_ne (sealedPath_ne_manifestPath store _),
    Disk.lookup_write_ne (sealedPath_ne_keyPath store _), Disk.lookup_write_self]

theorem lookup_key_afterPut :
    (store.afterPut C D originalFilename package stamp d).files.lookup
      (store.keyPath (newId D stamp)) = some (keyBytes C D package) := by
  rw [afterPut, Disk.lookup_write_ne (keyPath_ne_manifestPath store _), Disk.lookup_write_self]

theorem has_dir_afterPut :
    (store.afterPut C D originalFilename package stamp d).has
      (store.packageDir (newId D stamp)) = true :=
  Disk.has_write (Disk.has_write (Disk.has_write (Disk.has_createDirAll_self d _) _ _) _ _) _ _

/-- The package under an id, from the contents of its two files. -/
theorem packageOn_eq {d : Disk} (hdir : d.has (store.packageDir id) = true)
    (hsealed : d.files.lookup (store.sealedPath id) = some (sealedBytes D package))
    (hkey : d.files.lookup (store.keyPath id) = some (keyBytes C D package)) :
    store.packageOn C D id d = (do
      let sealedDoc ← decodeSealed D (D.toStringPretty package.sealedDoc.toJson)
      let keyCiphertext ← decodeKey C D (ciphertextToJson C D package.keyCiphertext)
      .ok { sealedDoc, keyCiphertext }) := by
  rw [packageOn, if_neg (by simp [hdir]), Disk.read_of_lookup hsealed, Disk.read_of_lookup hkey,
    sealedBytes, keyBytes, Fs.textOf_utf8, Fs.textOf_utf8]
  rfl

end

theorem decodeSealed_toJson {doc : SealedDocument}
    (h : D.fromStr (D.toStringPretty doc.toJson) = .ok doc.toJson) :
    decodeSealed D (D.toStringPretty doc.toJson) = .ok doc := by
  rw [decodeSealed, h, ok_bind, SealedDocument.fromJson_toJson, Outcome.ofExcept_ok]

/-! ## The round trip -/

section RoundTrip

variable (hD : D.ReadsBackShallow) (hgates : ∀ g ∈ package.keyCiphertext.tree.gates, 1 ≤ g.2)
include hD hgates

omit [DecidableEq F]

/-- What was put is read back, if its tree is not nested too deeply. -/
theorem packageOn_afterPut (hC : C.ReadsBack) (hX : D.HexReadsBack)
    (htree : package.keyCiphertext.tree.ThresholdsFit)
    (hpaths : ∀ l ∈ package.keyCiphertext.leaves, ∀ i ∈ l.path, i < 2 ^ 64)
    (hdepth : package.keyCiphertext.tree.gateDepth ≤ 41) :
    store.packageOn C D (newId D stamp) (store.afterPut C D originalFilename package stamp d) =
      .ok package := by
  have hsealed := hD.pretty package.sealedDoc.toJson
    (lt_of_le_of_lt (depth_sealedDocument _) (by omega))
  have hkey : D.fromStr (ciphertextToJson C D package.keyCiphertext) =
      .ok (ciphertextDto C D package.keyCiphertext).toJson :=
    hD.pretty _ ((depth_ciphertextDto hgates).2 hdepth)
  rw [packageOn_eq store _ package (has_dir_afterPut store originalFilename package stamp d)
    (lookup_sealed_afterPut store originalFilename package stamp d)
    (lookup_key_afterPut store originalFilename package stamp d), decodeSealed_toJson hsealed,
    decodeKey, ciphertextFromJson_toJson hC hX htree hpaths hkey]
  rfl

/-- What was put is refused, if its tree is nested too deeply. -/
theorem packageOn_afterPut_of_deep (hdepth : 41 < package.keyCiphertext.tree.gateDepth) :
    ∃ msg, store.packageOn C D (newId D stamp)
      (store.afterPut C D originalFilename package stamp d) =
        Outcome.err (.encoding (.encoding msg)) := by
  have hsealed := hD.pretty package.sealedDoc.toJson
    (lt_of_le_of_lt (depth_sealedDocument _) (by omega))
  have hdeep : ¬ (ciphertextDto C D package.keyCiphertext).toJson.depth < 128 := fun h =>
    absurd ((depth_ciphertextDto hgates).1 h) (not_le.2 hdepth)
  obtain ⟨msg, hmsg⟩ := hD.pretty_deep _ (not_lt.1 hdeep)
  refine ⟨msg, ?_⟩
  rw [packageOn_eq store _ package (has_dir_afterPut store originalFilename package stamp d)
    (lookup_sealed_afterPut store originalFilename package stamp d)
    (lookup_key_afterPut store originalFilename package stamp d), decodeSealed_toJson hsealed,
    decodeKey, ciphertextFromJson, ciphertextToJson, hmsg]
  rfl

end RoundTrip

end PackageStore

omit [DecidableEq F] in
/-- **A stored package is read back exactly if its policy nests at most 41 gates.** -/
theorem get_put_iff (hC : C.ReadsBack) (hX : D.HexReadsBack) (hD : D.ReadsBackShallow)
    {policy : String} (hlen : policy.length < 2 ^ 64) {rawTree : AccessTree}
    (hparse : parse policy = .ok rawTree) (revocation : RevocationList)
    {pp : PublicParams G₁ G₂ Gₜ} {plaintext : Bytes} {policySummary : String} {dek : ByteArr 32}
    {fileNonce wrapNonce : ByteArr 12} {rng rng' : Rng F} {package : EncryptedPackage G₁}
    (hseal : Envelope.seal C A D pp plaintext (retagTree rawTree revocation) policySummary dek
      fileNonce wrapNonce rng = .ok (package, rng'))
    (store : PackageStore) (originalFilename : String) (stamp : Stamp) {d d' : Disk} {id : String}
    (hput : Fs.exec (store.put C D originalFilename package stamp) d = (.ok id, d')) :
    (Fs.exec (store.get C D id) d').1 = .ok package ↔ rawTree.gateDepth ≤ 41 := by
  obtain ⟨-, -, -, hkey⟩ := of_seal_eq_ok C A D hseal
  have henc := encrypted_of_eq_ok hkey
  obtain ⟨hid, hd⟩ := Prod.mk.inj ((store.exec_put C D originalFilename package stamp d).symm.trans hput)
  obtain rfl := Except.ok.inj hid
  subst hd
  have hfits : package.keyCiphertext.tree.Fits policy.length := by
    rw [henc.tree_eq]
    exact (parse_fits hparse).of_gates_eq (gates_retagTree rawTree revocation)
  have hgates : ∀ g ∈ package.keyCiphertext.tree.gates, 1 ≤ g.2 := fun g hg =>
    (hfits g hg).1.trans (hfits g hg).2.1
  have hdepth : package.keyCiphertext.tree.gateDepth = rawTree.gateDepth := by
    rw [henc.tree_eq, gateDepth_retagTree]
  rw [(store.reads_get C D _ _).outcome]
  constructor
  · intro hget
    by_contra hdeep
    obtain ⟨msg, hmsg⟩ := store.packageOn_afterPut_of_deep (C := C) originalFilename package stamp d
      hD hgates (by omega)
    rw [hmsg] at hget
    cases hget
  · intro hshallow
    refine store.packageOn_afterPut originalFilename package stamp d hD hgates hC hX
      (hfits.thresholdsFit hlen) ?_ (by omega)
    exact henc.index_lt ((henc.tree_eq ▸ hfits).childrenLt hlen)

/-! ## A policy that nests gates -/

/-- The text `(..(a) OR a ..) OR a` with `k` gates, each in the parentheses of the next. -/
def nestedText : ℕ → List Char
  | 0 => ['a']
  | k + 1 => '(' :: (nestedText k ++ [')', ' ', 'O', 'R', ' ', 'a'])

/-- Its derivation. -/
def nestedExpr : ℕ → OrExpr
  | 0 => .chain (.chain (.attr "a") []) []
  | k + 1 => .chain (.chain (.paren (nestedExpr k)) []) [.chain (.attr "a") []]

theorem lexes_nestedText (k : ℕ) {rest : List Char} {ts : List Token} (h : Lexes rest ts)
    (hrest : ∀ c ∈ rest.head?, isWordChar c = false) :
    Lexes (nestedText k ++ rest) ((nestedExpr k).tokens ++ ts) := by
  induction k generalizing rest ts with
  | zero =>
    exact Lexes.word (w := ['a']) (by simp) (List.forall_mem_singleton.2 rfl) hrest h
  | succ k ih =>
    have hlast : Lexes (['a'] ++ rest) (.attr "a" :: ts) :=
      Lexes.word (by simp) (List.forall_mem_singleton.2 rfl) hrest h
    have hor : Lexes (['O', 'R'] ++ ' ' :: (['a'] ++ rest)) (.or :: .attr "a" :: ts) :=
      Lexes.word (by simp) (List.forall_mem_cons.2 ⟨rfl, List.forall_mem_singleton.2 rfl⟩)
        (by rintro c ⟨⟩; rfl) (Lexes.space (by decide) hlast)
    have hclose := Lexes.rParen (Lexes.space (c := ' ') (by decide) hor)
    have hinner := Lexes.lParen (ih hclose (by rintro c ⟨⟩; rfl))
    simpa [nestedText, nestedExpr, OrExpr.tokens, AndExpr.tokens, Atom.tokens, orTokens, andTokens]
      using hinner

theorem parse_nestedText (k : ℕ) :
    parse (String.ofList (nestedText k)) = .ok (nestedExpr k).tree := by
  refine parse_eq_ok.2 ⟨nestedExpr k, ?_, rfl⟩
  have h := lexes_nestedText k Lexes.nil (by simp)
  rw [List.append_nil, List.append_nil] at h
  rwa [String.toList_ofList]

theorem gateDepth_nestedExpr (k : ℕ) : (nestedExpr k).tree.gateDepth = k := by
  induction k with
  | zero => rfl
  | succ k ih =>
    simp only [nestedExpr, OrExpr.tree, AndExpr.tree, Atom.tree, andTrees, AccessTree.gateDepth,
      AccessTree.gateDepthOf, ih]
    omega

theorem leaves_nestedExpr (k : ℕ) : ∀ a ∈ (nestedExpr k).tree.leaves, a = "a" := by
  induction k with
  | zero =>
    intro a ha
    exact (List.mem_singleton.1 ha).trans (by decide)
  | succ k ih =>
    intro a ha
    simp only [nestedExpr, OrExpr.tree, AndExpr.tree, Atom.tree, andTrees, AccessTree.leaves_gate,
      List.flatMap_cons, List.flatMap_nil, List.append_nil, List.mem_append,
      AccessTree.leaves_leaf, List.mem_singleton] at ha
    rcases ha with ha | rfl
    · exact ih a ha
    · decide

/-- An empty revocation list. -/
def noRevocations : RevocationList := ⟨⟨[]⟩, default⟩

/-- The registration of the attribute of the text. -/
def nestedCalls : List (String × Rng Scalar) := [("a@epoch0", fun _ => (1 : ℕ))]

def nestedParams : PublicParams Scalar Scalar Scalar :=
  registerAll (setup exponents fun _ => 1).1.1 nestedCalls

theorem exists_seal_nested (k : ℕ) : ∃ (package : EncryptedPackage Scalar) (rng : Rng Scalar),
    Envelope.seal exponents boxes serdeJson nestedParams [] (retagTree (nestedExpr k).tree noRevocations)
      "" ⟨List.replicate 32 0, rfl⟩ ⟨List.replicate 12 0, rfl⟩ ⟨List.replicate 12 0, rfl⟩
      (fun _ => (1 : Scalar)) = .ok (package, rng) := by
  have hleaves : ∀ a ∈ (retagTree (nestedExpr k).tree noRevocations).leaves,
      a ∈ nestedParams.attributes := by
    intro a ha
    rw [leaves_retagTree] at ha
    obtain ⟨b, hb, rfl⟩ := List.mem_map.1 ha
    rw [leaves_nestedExpr k b hb, nestedParams, mem_registerAll]
    left
    decide
  exact exists_seal exponents boxes serdeJson correct_boxes [] hleaves "" _ _ _ _

def exampleStore : PackageStore := ⟨⟨["packages"]⟩⟩

def exampleStamp : Stamp := ⟨255, ⟨[1, 2, 3, 4], rfl⟩, 0⟩

def emptyDisk : Disk := ⟨∅, []⟩

/-- A package under a policy with one gate is read back. -/
theorem get_put_one_gate : ∃ (package : EncryptedPackage Scalar) (id : String) (d' : Disk),
    Fs.exec (exampleStore.put exponents serdeJson "report" package exampleStamp) emptyDisk =
        (.ok id, d') ∧
      (Fs.exec (exampleStore.get exponents serdeJson id) d').1 = .ok package := by
  obtain ⟨package, rng, hseal⟩ := exists_seal_nested 1
  refine ⟨package, _, _, exampleStore.exec_put exponents serdeJson "report" package exampleStamp _, ?_⟩
  refine (get_put_iff readsBack_exponents (hexReadsBack_codecWith _) readsBackShallow_serdeJson
    (by decide) (parse_nestedText 1) noRevocations hseal exampleStore "report" exampleStamp
    (exampleStore.exec_put exponents serdeJson "report" package exampleStamp _)).2 ?_
  rw [gateDepth_nestedExpr]
  omega

/-- A package under a policy with 42 nested gates is stored, and is not read back. -/
theorem get_put_42_gates : ∃ (package : EncryptedPackage Scalar) (rng : Rng Scalar) (id : String)
    (d' : Disk),
    parse (String.ofList (nestedText 42)) = .ok (nestedExpr 42).tree ∧
      Envelope.seal exponents boxes serdeJson nestedParams []
        (retagTree (nestedExpr 42).tree noRevocations) "" ⟨List.replicate 32 0, rfl⟩
        ⟨List.replicate 12 0, rfl⟩ ⟨List.replicate 12 0, rfl⟩ (fun _ => (1 : Scalar)) =
          .ok (package, rng) ∧
      Fs.exec (exampleStore.put exponents serdeJson "report" package exampleStamp) emptyDisk =
        (.ok id, d') ∧
      (Fs.exec (exampleStore.get exponents serdeJson id) d').1 ≠ .ok package := by
  obtain ⟨package, rng, hseal⟩ := exists_seal_nested 42
  refine ⟨package, rng, _, _, parse_nestedText 42, hseal,
    exampleStore.exec_put exponents serdeJson "report" package exampleStamp _, fun hget => ?_⟩
  obtain ⟨-, -, -, hkey⟩ := of_seal_eq_ok exponents boxes serdeJson hseal
  have htree := (encrypted_of_eq_ok hkey).tree_eq
  have hgates : ∀ g ∈ package.keyCiphertext.tree.gates, 1 ≤ g.2 := by
    intro g hg
    rw [htree, gates_retagTree] at hg
    have := parse_fits (parse_nestedText 42) g hg
    omega
  have hdeep : 41 < package.keyCiphertext.tree.gateDepth := by
    rw [htree, gateDepth_retagTree, gateDepth_nestedExpr]
    omega
  rw [(exampleStore.reads_get exponents serdeJson _ _).outcome] at hget
  obtain ⟨msg, hmsg⟩ := exampleStore.packageOn_afterPut_of_deep (C := exponents) "report" package
    exampleStamp emptyDisk readsBackShallow_serdeJson hgates hdeep
  rw [hmsg] at hget
  cases hget

end SecureABE.Storage
