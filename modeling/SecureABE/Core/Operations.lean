import SecureABE.Core.Scheme
import SecureABE.Core.Recombination

/-!
# What the operations of the scheme guarantee

One specification for each operation of `Scheme`; the results on the scheme use these only.

* `setup` starts a deployment and `registerAttribute` continues it (`Deployed`). Registration adds
  commitments and never replaces one (`Extends`).
* `keygen` makes the components of a key with one exponent `r` (`Minted`, `keygen_spec`).
* `encryptKey` raises the generators to the shares of `s` (`Encrypted`, `encryptKey_spec`).
* `recoverBlinding`, on a ciphertext of `encryptKey` and a key whose components have the exponents
  `rho`, subtracts the recombined scalar from the pairing of `c` and `d` (`recoverBlinding_eq`).
-/

namespace SecureABE.Core

open Rust SecureABE.Policy

variable {F G₁ G₂ Gₜ : Type} [Field F] [AddCommGroup G₁] [Module F G₁] [AddCommGroup G₂] [Module F G₂]
  [AddCommGroup Gₜ] [Module F Gₜ]

/-! ## Deployments -/

/-- The public parameters of a deployment with the master secret `msk`. -/
structure Deployed (C : Curve F G₁ G₂ Gₜ) (msk : MasterSecret F) (pp : PublicParams G₁ G₂ Gₜ) :
    Prop where
  g1 : pp.g1 = C.g1
  g2 : pp.g2 = C.g2
  h : pp.h = msk.beta • C.g1
  eggAlpha : pp.eggAlpha = msk.alpha • C.pairing C.g1 C.g2
  commitment : ∀ a c, pp.attributes.lookup a = some c → ∃ t : F, c = ⟨t • C.g1, t • C.g2⟩

/-- `pp'` has what `pp` has, and possibly further attributes. -/
structure Extends (pp pp' : PublicParams G₁ G₂ Gₜ) : Prop where
  g1 : pp'.g1 = pp.g1
  g2 : pp'.g2 = pp.g2
  h : pp'.h = pp.h
  eggAlpha : pp'.eggAlpha = pp.eggAlpha
  lookup : ∀ a c, pp.attributes.lookup a = some c → pp'.attributes.lookup a = some c

omit [AddCommGroup G₁] [AddCommGroup G₂] [AddCommGroup Gₜ] in
theorem Extends.refl (pp : PublicParams G₁ G₂ Gₜ) : Extends pp pp :=
  ⟨rfl, rfl, rfl, rfl, fun _ _ h => h⟩

omit [AddCommGroup G₁] [AddCommGroup G₂] [AddCommGroup Gₜ] in
theorem Extends.trans {pp pp' pp'' : PublicParams G₁ G₂ Gₜ} (h : Extends pp pp')
    (h' : Extends pp' pp'') : Extends pp pp'' :=
  ⟨h'.g1.trans h.g1, h'.g2.trans h.g2, h'.h.trans h.h, h'.eggAlpha.trans h.eggAlpha,
    fun a c hc => h'.lookup a c (h.lookup a c hc)⟩

omit [AddCommGroup G₁] [AddCommGroup G₂] [AddCommGroup Gₜ] in
theorem Extends.mem {pp pp' : PublicParams G₁ G₂ Gₜ} (h : Extends pp pp') {a : String}
    (ha : a ∈ pp.attributes) : a ∈ pp'.attributes := by
  obtain ⟨c, hc⟩ := HashMap.exists_lookup_of_mem ha
  exact HashMap.mem_of_lookup (h.lookup a c hc)

section Setup

variable {C : Curve F G₁ G₂ Gₜ} {msk : MasterSecret F} {pp : PublicParams G₁ G₂ Gₜ}

/-- The parameters are those of the secret, but for the commitments. -/
theorem Deployed.eq (hpp : Deployed C msk pp) :
    pp = { g1 := C.g1, g2 := C.g2, h := msk.beta • C.g1,
           eggAlpha := msk.alpha • C.pairing C.g1 C.g2, attributes := pp.attributes } :=
  PublicParams.ext hpp.g1 hpp.g2 hpp.h hpp.eggAlpha rfl

/-- Setup starts a deployment. -/
theorem deployed_setup (C : Curve F G₁ G₂ Gₜ) (rng : Rng F) :
    Deployed C (setup C rng).1.2 (setup C rng).1.1 where
  g1 := rfl
  g2 := rfl
  h := rfl
  eggAlpha := rfl
  commitment := by
    intro a c h
    exact absurd h (by simp [setup, AList.lookup_empty])

omit [AddCommGroup Gₜ] [Module F Gₜ] in
/-- The commitments after a registration: the new one, unless the name was known, and all others. -/
theorem lookup_registerAttribute (pp : PublicParams G₁ G₂ Gₜ) (name : String) (rng : Rng F)
    (a : String) :
    (registerAttribute pp name rng).1.attributes.lookup a =
      if a = name ∧ name ∉ pp.attributes then some ⟨rng 0 • pp.g1, rng 0 • pp.g2⟩
      else pp.attributes.lookup a := by
  rw [registerAttribute]
  by_cases hmem : name ∈ pp.attributes
  · rw [if_pos hmem, if_neg (fun h => h.2 hmem)]
  · rw [if_neg hmem]
    by_cases ha : a = name
    · subst ha
      rw [if_pos ⟨rfl, hmem⟩]
      exact AList.lookup_insert _
    · rw [if_neg (fun h => ha h.1)]
      exact AList.lookup_insert_ne ha

omit [AddCommGroup Gₜ] [Module F Gₜ] in
theorem extends_registerAttribute (pp : PublicParams G₁ G₂ Gₜ) (name : String) (rng : Rng F) :
    Extends pp (registerAttribute pp name rng).1 := by
  have hfields : (registerAttribute pp name rng).1 = { pp with
      attributes := (registerAttribute pp name rng).1.attributes } := by
    rw [registerAttribute]
    split_ifs <;> rfl
  refine ⟨by rw [hfields], by rw [hfields], by rw [hfields], by rw [hfields], fun a c hc => ?_⟩
  rw [lookup_registerAttribute, if_neg, hc]
  rintro ⟨rfl, hmem⟩
  exact hmem (HashMap.mem_of_lookup hc)

omit [AddCommGroup Gₜ] [Module F Gₜ] in
theorem mem_registerAttribute (pp : PublicParams G₁ G₂ Gₜ) (name : String) (rng : Rng F)
    (a : String) :
    a ∈ (registerAttribute pp name rng).1.attributes ↔ a = name ∨ a ∈ pp.attributes := by
  rw [← AList.lookup_isSome, lookup_registerAttribute]
  split_ifs with h
  · simp [h.1]
  · rw [AList.lookup_isSome]
    refine ⟨Or.inr, ?_⟩
    rintro (rfl | h')
    · exact by_contra fun hn => h ⟨rfl, hn⟩
    · exact h'

/-- A registration keeps a deployment. -/
theorem Deployed.registerAttribute (hpp : Deployed C msk pp) (name : String) (rng : Rng F) :
    Deployed C msk (registerAttribute pp name rng).1 := by
  have hext := extends_registerAttribute pp name rng
  refine ⟨hext.g1.trans hpp.g1, hext.g2.trans hpp.g2, hext.h.trans hpp.h,
    hext.eggAlpha.trans hpp.eggAlpha, fun a c hc => ?_⟩
  rw [lookup_registerAttribute] at hc
  split_ifs at hc
  · refine ⟨rng 0, ?_⟩
    rw [← Option.some.inj hc, hpp.g1, hpp.g2]
  · exact hpp.commitment a c hc

omit [AddCommGroup Gₜ] [Module F Gₜ] in
/-- A registration leaves a constant generator as it is. -/
theorem registerAttribute_const (pp : PublicParams G₁ G₂ Gₜ) (name : String) {rng : Rng F} {x : F}
    (hrng : rng = fun _ => x) : (registerAttribute pp name rng).2 = fun _ => x := by
  subst hrng
  rw [registerAttribute]
  split_ifs <;> rfl

/-- The parameters after a sequence of registrations, each with its generator. -/
def registerAll (pp : PublicParams G₁ G₂ Gₜ) (calls : List (String × Rng F)) :
    PublicParams G₁ G₂ Gₜ :=
  calls.foldl (fun pp call => (registerAttribute pp call.1 call.2).1) pp

omit [AddCommGroup Gₜ] [Module F Gₜ] in
theorem extends_registerAll (pp : PublicParams G₁ G₂ Gₜ) (calls : List (String × Rng F)) :
    Extends pp (registerAll pp calls) := by
  induction calls generalizing pp with
  | nil => exact Extends.refl pp
  | cons call calls ih => exact (extends_registerAttribute pp call.1 call.2).trans (ih _)

theorem Deployed.registerAll (hpp : Deployed C msk pp) (calls : List (String × Rng F)) :
    Deployed C msk (registerAll pp calls) := by
  induction calls generalizing pp with
  | nil => exact hpp
  | cons call calls ih => exact ih (hpp.registerAttribute call.1 call.2)

omit [AddCommGroup Gₜ] [Module F Gₜ]

theorem mem_registerAll (pp : PublicParams G₁ G₂ Gₜ) (calls : List (String × Rng F)) (a : String) :
    a ∈ (registerAll pp calls).attributes ↔ a ∈ calls.map Prod.fst ∨ a ∈ pp.attributes := by
  induction calls generalizing pp with
  | nil => simp [registerAll]
  | cons call calls ih =>
    have hstep : registerAll pp (call :: calls) =
      registerAll (registerAttribute pp call.1 call.2).1 calls := rfl
    rw [hstep, ih, mem_registerAttribute, List.map_cons, List.mem_cons]
    tauto

/-- Registrations change the attributes exactly if one of the names is new. -/
theorem attributes_registerAll_eq_iff {pp : PublicParams G₁ G₂ Gₜ} {calls : List (String × Rng F)} :
    (registerAll pp calls).attributes = pp.attributes ↔ ∀ a ∈ calls.map Prod.fst, a ∈ pp.attributes := by
  constructor
  · intro h a ha
    rw [← h]
    exact (mem_registerAll pp calls a).2 (Or.inl ha)
  · intro h
    induction calls with
    | nil => rfl
    | cons call calls ih =>
      rw [List.map_cons, List.forall_mem_cons] at h
      have hknown : (registerAttribute pp call.1 call.2).1 = pp := by
        rw [Core.registerAttribute, if_pos h.1]
      change (registerAll (Core.registerAttribute pp call.1 call.2).1 calls).attributes = _
      rw [hknown, ih h.2]

end Setup

/-! ## Key generation -/

/-- The components of a key for the attribute `a`, made with the exponent `r`. -/
def Component (pp : PublicParams G₁ G₂ Gₜ) (a : String) (r : F) (share : AttributeKeyShare G₂) :
    Prop :=
  ∃ c rJ, pp.attributes.lookup a = some c ∧ share = ⟨r • pp.g2 + rJ • c.t2, (rJ : F) • pp.g2⟩

omit [AddCommGroup G₁] [Module F G₁] [AddCommGroup Gₜ] [Module F Gₜ] in
theorem Component.mono {pp pp' : PublicParams G₁ G₂ Gₜ} (h : Extends pp pp') {a : String} {r : F}
    {share : AttributeKeyShare G₂} (hs : Component pp a r share) : Component pp' a r share := by
  obtain ⟨c, rJ, hc, hs⟩ := hs
  exact ⟨c, rJ, h.lookup a c hc, by rw [hs, h.g2]⟩

/-- A key with the exponent `r` for the attributes `attrs`. -/
structure Minted (pp : PublicParams G₁ G₂ Gₜ) (msk : MasterSecret F) (attrs : List String) (r : F)
    (usk : UserSecretKey G₂) : Prop where
  d : usk.d = ((msk.alpha + r) * msk.beta⁻¹) • pp.g2
  mem : ∀ a, a ∈ usk.attributes ↔ a ∈ attrs
  component : ∀ a share, usk.attributes.lookup a = some share → Component pp a r share

omit [AddCommGroup G₁] [Module F G₁] [AddCommGroup Gₜ] [Module F Gₜ] in
theorem keygenLoop_spec {pp : PublicParams G₁ G₂ Gₜ} {r : F} {attrs : List String}
    (hattrs : ∀ a ∈ attrs, a ∈ pp.attributes) {keys : HashMap String (AttributeKeyShare G₂)}
    (hkeys : ∀ a share, keys.lookup a = some share → Component pp a r share) (rng : Rng F) :
    ∃ keys' rng', keygenLoop pp r attrs keys rng = .ok (keys', rng') ∧
      (∀ a, a ∈ keys' ↔ a ∈ attrs ∨ a ∈ keys) ∧
      ∀ a share, keys'.lookup a = some share → Component pp a r share := by
  induction attrs generalizing keys rng with
  | nil => exact ⟨keys, rng, rfl, by simp, hkeys⟩
  | cons a attrs ih =>
    obtain ⟨c, hc⟩ := HashMap.exists_lookup_of_mem (hattrs a (by simp))
    have hinsert : ∀ b share,
        (keys.insert a ⟨r • pp.g2 + rng 0 • c.t2, rng 0 • pp.g2⟩).lookup b = some share →
          Component pp b r share := by
      intro b share hb
      by_cases hba : b = a
      · subst hba
        rw [AList.lookup_insert] at hb
        exact ⟨c, rng 0, hc, (Option.some.inj hb).symm⟩
      · exact hkeys b share (by rwa [AList.lookup_insert_ne hba] at hb)
    obtain ⟨keys', rng', hrun, hmem, hcomp⟩ :=
      ih (fun b hb => hattrs b (by simp [hb])) hinsert rng.next.2
    refine ⟨keys', rng', ?_, fun b => ?_, hcomp⟩
    · unfold keygenLoop index
      rw [hc]
      exact hrun
    · rw [hmem, AList.mem_insert, List.mem_cons]
      tauto

variable [DecidableEq F]

omit [AddCommGroup G₁] [Module F G₁] [AddCommGroup Gₜ] [Module F Gₜ] in
/-- **Key generation**: it succeeds exactly on registered attributes and mints a key with the first
scalar it draws. -/
theorem keygen_spec {pp : PublicParams G₁ G₂ Gₜ} {msk : MasterSecret F} (hbeta : msk.beta ≠ 0)
    (subject : String) {attrs : List String} (hattrs : ∀ a ∈ attrs, a ∈ pp.attributes)
    (rng : Rng F) :
    ∃ usk rng', keygen pp msk subject attrs rng = .ok (usk, rng') ∧ usk.subject = subject ∧
      Minted pp msk attrs (rng 0) usk := by
  have hfind : attrs.find? (fun a => decide (a ∉ pp.attributes)) = none := by
    simpa using hattrs
  have hempty : ∀ a share, (∅ : HashMap String (AttributeKeyShare G₂)).lookup a = some share →
      Component pp a (rng 0) share := by
    intro a share h
    simp [AList.lookup_empty] at h
  obtain ⟨keys, rng', hrun, hmem, hcomp⟩ := keygenLoop_spec hattrs hempty rng.next.2
  have hinv : invert msk.beta = some msk.beta⁻¹ := if_neg hbeta
  refine ⟨⟨subject, ((msk.alpha + rng 0) * msk.beta⁻¹) • pp.g2, keys⟩, rng', ?_, rfl, rfl, ?_, hcomp⟩
  · simp only [keygen, hfind, hinv, Outcome.expect_some]
    change (keygenLoop pp (rng 0) attrs ∅ rng.next.2 >>= _) = _
    rw [hrun]
    rfl
  · intro a
    rw [hmem]
    simp [AList.notMem_empty]

omit [AddCommGroup G₁] [Module F G₁] [AddCommGroup Gₜ] [Module F Gₜ] in
/-- The attributes that key generation accepts are registered. -/
theorem mem_of_keygen_eq_ok {pp : PublicParams G₁ G₂ Gₜ} {msk : MasterSecret F} {subject : String}
    {attrs : List String} {rng : Rng F} {out : UserSecretKey G₂ × Rng F}
    (h : keygen pp msk subject attrs rng = .ok out) : ∀ a ∈ attrs, a ∈ pp.attributes := by
  intro a ha
  by_contra hmem
  cases hfind : attrs.find? (fun a => decide (a ∉ pp.attributes)) with
  | none => exact absurd (List.find?_eq_none.1 hfind a ha) (by simpa using hmem)
  | some b =>
    rw [keygen, hfind] at h
    cases h

omit [AddCommGroup G₁] [Module F G₁] [AddCommGroup Gₜ] [Module F Gₜ] in
/-- What key generation returns, whenever it succeeds. -/
theorem minted_of_keygen_eq_ok {pp : PublicParams G₁ G₂ Gₜ} {msk : MasterSecret F} {subject : String}
    {attrs : List String} {rng rng' : Rng F} {usk : UserSecretKey G₂}
    (h : keygen pp msk subject attrs rng = .ok (usk, rng')) :
    msk.beta ≠ 0 ∧ usk.subject = subject ∧ Minted pp msk attrs (rng 0) usk := by
  have hattrs := mem_of_keygen_eq_ok h
  have hbeta : msk.beta ≠ 0 := by
    intro hzero
    have hfind : attrs.find? (fun a => decide (a ∉ pp.attributes)) = none := by
      simpa using hattrs
    have hinv : invert msk.beta = none := if_pos hzero
    simp only [keygen, hfind, hinv] at h
    cases h
  obtain ⟨usk', rng'', hrun, hsubject, hminted⟩ := keygen_spec hbeta subject hattrs rng
  obtain ⟨rfl, -⟩ := Prod.mk.inj (Except.ok.inj (h.symm.trans hrun))
  exact ⟨hbeta, hsubject, hminted⟩

omit [DecidableEq F] [AddCommGroup G₁] [Module F G₁] [AddCommGroup Gₜ] [Module F Gₜ] in
theorem Minted.mono {pp pp' : PublicParams G₁ G₂ Gₜ} (hext : Extends pp pp') {msk : MasterSecret F}
    {attrs : List String} {r : F} {usk : UserSecretKey G₂} (h : Minted pp msk attrs r usk) :
    Minted pp' msk attrs r usk :=
  ⟨by rw [h.d, hext.g2], h.mem, fun a share hs => (h.component a share hs).mono hext⟩

/-! ## Encryption -/

/-- The encrypted form of a share. -/
def LeafOf (pp : PublicParams G₁ G₂ Gₜ) (share : Share F) (leaf : LeafCiphertext G₁) : Prop :=
  ∃ c, pp.attributes.lookup share.attr = some c ∧
    leaf = ⟨share.path, share.attr, share.lambda • pp.g1, share.lambda • c.t1⟩

omit [AddCommGroup G₂] [Module F G₂] [AddCommGroup Gₜ] [Module F Gₜ] [DecidableEq F] in
theorem encryptLeaves_spec {pp : PublicParams G₁ G₂ Gₜ} {shares : List (Share F)}
    (h : ∀ share ∈ shares, share.attr ∈ pp.attributes) :
    ∃ leaves, encryptLeaves pp shares = .ok leaves ∧ List.Forall₂ (LeafOf pp) shares leaves := by
  induction shares with
  | nil => exact ⟨[], rfl, List.Forall₂.nil⟩
  | cons share shares ih =>
    obtain ⟨c, hc⟩ := HashMap.exists_lookup_of_mem (h share (by simp))
    obtain ⟨leaves, hrun, hleaves⟩ := ih fun sh hsh => h sh (by simp [hsh])
    refine ⟨⟨share.path, share.attr, share.lambda • pp.g1, share.lambda • c.t1⟩ :: leaves, ?_,
      List.Forall₂.cons ⟨c, hc, rfl⟩ hleaves⟩
    unfold encryptLeaves index
    rw [hc, hrun]
    rfl

omit [DecidableEq F] in
/-- The attributes of the shares are the leaves of the tree. -/
theorem map_attr_sharesAt (t : AccessTree) (s : F) (rng : Rng F) (path : List ℕ) :
    (sharesAt t s rng path).map Share.attr = t.leaves := by
  induction t using AccessTree.induct generalizing s rng path with
  | leaf a => rfl
  | gate k cs ih =>
    have loop : ∀ (q : ℕ → F) (i : ℕ) (rng : Rng F),
        (sharesOf cs q i rng path).map Share.attr = cs.flatMap AccessTree.leaves := by
      induction cs with
      | nil => intros; rfl
      | cons c cs ihcs =>
        intro q i rng
        rw [sharesOf, List.map_append, ih c (by simp), ihcs (fun d hd => ih d (by simp [hd])),
          List.flatMap_cons]
    rw [sharesAt, loop, AccessTree.leaves_gate]

variable (C : Curve F G₁ G₂ Gₜ) (A : Cipher) (D : Codec)

/-- A ciphertext of `dek` under `tree`, made with the exponent `s` and the shares that a generator
gives. -/
structure Encrypted (pp : PublicParams G₁ G₂ Gₜ) (dek : ByteArr 32) (tree : AccessTree) (s : F)
    (rng : Rng F) (ct : AbeCiphertext G₁) : Prop where
  tree_eq : ct.tree = tree
  c_eq : ct.c = s • pp.h
  leaves : List.Forall₂ (LeafOf pp) (sharesAt tree s rng []) ct.leaves
  wrappedKey : ∃ aad, dekWrapAad D tree = .ok aad ∧
    A.encrypt (kdf C A (s • pp.eggAlpha)) ct.wrappedKey.nonce dek.1 aad =
      some ct.wrappedKey.ciphertext

variable {A}

section

omit [DecidableEq F]

theorem Encrypted.mono {pp pp' : PublicParams G₁ G₂ Gₜ} (hext : Extends pp pp') {dek : ByteArr 32}
    {tree : AccessTree} {s : F} {rng : Rng F} {ct : AbeCiphertext G₁}
    (h : Encrypted C A D pp dek tree s rng ct) : Encrypted C A D pp' dek tree s rng ct := by
  refine ⟨h.tree_eq, by rw [h.c_eq, hext.h], h.leaves.imp ?_, by rw [hext.eggAlpha]; exact h.wrappedKey⟩
  rintro share leaf ⟨c, hc, rfl⟩
  exact ⟨c, hext.lookup _ c hc, by rw [hext.g1]⟩

/-- Encryption of a tree with registered leaves, up to the symmetric encryption. -/
theorem encryptKey_eq (A : Cipher) {pp : PublicParams G₁ G₂ Gₜ} (dek : ByteArr 32)
    {tree : AccessTree} (htree : ∀ a ∈ tree.leaves, a ∈ pp.attributes) (rng : Rng F)
    (nonce : ByteArr 12) :
    ∃ leaves, List.Forall₂ (LeafOf pp) (sharesAt tree (rng 0) (rng.drop 1) []) leaves ∧
      encryptKey C A D pp dek tree rng nonce = (do
        let ciphertext ← Outcome.okOr (.encoding "aead::Error")
          (A.encrypt (kdf C A (rng 0 • pp.eggAlpha)) nonce dek.1
            (DEK_WRAP_AAD_DOMAIN ++ D.toVec tree.toJson))
        .ok (⟨tree, rng 0 • pp.h, leaves, ⟨nonce, ciphertext⟩⟩, rng.drop (1 + coeffCount tree))) := by
  have hfind : tree.leaves.find? (fun a => decide (a ∉ pp.attributes)) = none := by
    simpa using htree
  have hattrs : ∀ share ∈ sharesAt tree (rng 0) (rng.drop 1) [], share.attr ∈ pp.attributes := by
    intro share hshare
    apply htree share.attr
    rw [← map_attr_sharesAt tree (rng 0) (rng.drop 1) []]
    exact List.mem_map_of_mem hshare
  obtain ⟨leaves, hrun, hleaves⟩ := encryptLeaves_spec hattrs
  refine ⟨leaves, hleaves, ?_⟩
  simp only [encryptKey, hfind, Rng.next_fst, Rng.next_snd, shareSecret_eq, hrun, dekWrapAad]
  rw [Rng.drop_drop]
  rfl

/-- The leaves of a tree that encryption accepts are registered. -/
theorem mem_of_encryptKey_eq_ok {pp : PublicParams G₁ G₂ Gₜ} {dek : ByteArr 32} {tree : AccessTree}
    {rng : Rng F} {nonce : ByteArr 12} {out : AbeCiphertext G₁ × Rng F}
    (h : encryptKey C A D pp dek tree rng nonce = .ok out) :
    ∀ a ∈ tree.leaves, a ∈ pp.attributes := by
  intro a ha
  by_contra hmem
  cases hfind : tree.leaves.find? (fun a => decide (a ∉ pp.attributes)) with
  | none => exact absurd (List.find?_eq_none.1 hfind a ha) (by simpa using hmem)
  | some b =>
    rw [encryptKey, hfind] at h
    cases h

/-- **Encryption** succeeds on trees with registered leaves. -/
theorem encryptKey_spec (hA : A.Correct) {pp : PublicParams G₁ G₂ Gₜ} (dek : ByteArr 32)
    {tree : AccessTree} (htree : ∀ a ∈ tree.leaves, a ∈ pp.attributes) (rng : Rng F)
    (nonce : ByteArr 12) :
    ∃ ct, encryptKey C A D pp dek tree rng nonce = .ok (ct, rng.drop (1 + coeffCount tree)) ∧
      Encrypted C A D pp dek tree (rng 0) (rng.drop 1) ct := by
  obtain ⟨leaves, hleaves, heq⟩ := encryptKey_eq C D A dek htree rng nonce
  obtain ⟨ciphertext, hct⟩ := Option.isSome_iff_exists.1 (hA.encrypt_isSome
    (kdf C A (rng 0 • pp.eggAlpha)) nonce dek.1 (DEK_WRAP_AAD_DOMAIN ++ D.toVec tree.toJson))
  refine ⟨⟨tree, rng 0 • pp.h, leaves, ⟨nonce, ciphertext⟩⟩, ?_, rfl, rfl, hleaves, _, rfl, hct⟩
  rw [heq, hct]
  rfl

end

variable {C D}

omit [DecidableEq F] in
/-- What encryption returns, whenever it succeeds. -/
theorem encrypted_of_eq_ok {pp : PublicParams G₁ G₂ Gₜ} {dek : ByteArr 32} {tree : AccessTree}
    {rng rng' : Rng F} {nonce : ByteArr 12} {ct : AbeCiphertext G₁}
    (h : encryptKey C A D pp dek tree rng nonce = .ok (ct, rng')) :
    Encrypted C A D pp dek tree (rng 0) (rng.drop 1) ct := by
  obtain ⟨leaves, hleaves, heq⟩ :=
    encryptKey_eq C D A dek (mem_of_encryptKey_eq_ok C D h) rng nonce
  rw [heq] at h
  obtain ⟨ciphertext, hct, hret⟩ := bind_eq_ok.1 h
  obtain ⟨rfl, -⟩ := Prod.mk.inj (Except.ok.inj hret)
  refine ⟨rfl, rfl, hleaves, _, rfl, ?_⟩
  cases hwrap : A.encrypt (kdf C A (rng 0 • pp.eggAlpha)) nonce dek.1
      (DEK_WRAP_AAD_DOMAIN ++ D.toVec tree.toJson) with
  | none => rw [hwrap] at hct; cases hct
  | some ciphertext' => rw [hwrap] at hct; exact congrArg some (Except.ok.inj hct)

omit [DecidableEq F] [AddCommGroup G₂] [Module F G₂] [AddCommGroup Gₜ] [Module F Gₜ] in
/-- A leaf is the encrypted form of one of the shares. -/
theorem exists_share_of_leaf {pp : PublicParams G₁ G₂ Gₜ} {shares : List (Share F)}
    {leaves : List (LeafCiphertext G₁)} (h : List.Forall₂ (LeafOf pp) shares leaves)
    {leaf : LeafCiphertext G₁} (hleaf : leaf ∈ leaves) : ∃ share ∈ shares, LeafOf pp share leaf := by
  induction h with
  | nil => cases hleaf
  | cons hfirst _ ih =>
    rcases List.mem_cons.1 hleaf with rfl | hmem
    · exact ⟨_, List.mem_cons_self, hfirst⟩
    · obtain ⟨share, hshare, hof⟩ := ih hmem
      exact ⟨share, List.mem_cons_of_mem _ hshare, hof⟩

omit [DecidableEq F] [AddCommGroup G₂] [Module F G₂] [AddCommGroup Gₜ] [Module F Gₜ] in
theorem map_attr_leaves {pp : PublicParams G₁ G₂ Gₜ} {shares : List (Share F)}
    {leaves : List (LeafCiphertext G₁)} (h : List.Forall₂ (LeafOf pp) shares leaves) :
    leaves.map LeafCiphertext.attr = shares.map Share.attr := by
  induction h with
  | nil => rfl
  | cons hfirst _ ih =>
    obtain ⟨c, -, rfl⟩ := hfirst
    rw [List.map_cons, List.map_cons, ih]

omit [DecidableEq F] in
/-- The indices on the paths of a ciphertext are those of children. -/
theorem Encrypted.index_lt {pp : PublicParams G₁ G₂ Gₜ} {dek : ByteArr 32} {tree : AccessTree} {s : F}
    {rng : Rng F} {ct : AbeCiphertext G₁} (h : Encrypted C A D pp dek tree s rng ct) {n : ℕ}
    (htree : tree.ChildrenLt n) : ∀ l ∈ ct.leaves, ∀ i ∈ l.path, i < n := by
  intro l hl i hi
  obtain ⟨share, hshare, c, -, rfl⟩ := exists_share_of_leaf h.leaves hl
  exact index_lt_of_mem htree (by simp) hshare i hi

variable (C D)

/-! ## Decryption -/

theorem rel_isSome {α β : Type} {R : α → β → Prop} {x : Option α} {y : Option β}
    (h : Option.Rel R x y) : x.isSome = y.isSome := by
  cases h <;> rfl

theorem rel_imp {α β : Type} {R S : α → β → Prop} (hRS : ∀ a b, R a b → S a b) {x : Option α}
    {y : Option β} (h : Option.Rel R x y) : Option.Rel S x y := by
  cases h with
  | some h => exact Option.Rel.some (hRS _ _ h)
  | none => exact Option.Rel.none

/-- The key `usk` holds the attributes that have an exponent in `rho`, each with a component made
with this exponent. -/
def Exponents (pp : PublicParams G₁ G₂ Gₜ) (usk : UserSecretKey G₂) (rho : String → Option F) : Prop :=
  ∀ a, Option.Rel (Component pp a) (rho a) (usk.attributes.lookup a)

omit [AddCommGroup G₁] [Module F G₁] [AddCommGroup Gₜ] [Module F Gₜ] [DecidableEq F] in
theorem Exponents.isSome {pp : PublicParams G₁ G₂ Gₜ} {usk : UserSecretKey G₂}
    {rho : String → Option F} (h : Exponents pp usk rho) (a : String) :
    (rho a).isSome = decide (a ∈ usk.attributeNames) := by
  have hmem : a ∈ usk.attributeNames ↔ (usk.attributes.lookup a).isSome := by
    rw [UserSecretKey.attributeNames, HashMap.mem_keys_iter, AList.lookup_isSome]
  rw [rel_isSome (h a), Bool.eq_iff_iff, decide_eq_true_eq, hmem]

omit [AddCommGroup G₁] [Module F G₁] [AddCommGroup Gₜ] [Module F Gₜ] [DecidableEq F] in
/-- The components of a minted key all have its exponent. -/
theorem Minted.exponents {pp : PublicParams G₁ G₂ Gₜ} {msk : MasterSecret F} {attrs : List String}
    {r : F} {usk : UserSecretKey G₂} (h : Minted pp msk attrs r usk) :
    Exponents pp usk (fun a => if a ∈ attrs then some r else none) := by
  intro a
  dsimp only
  by_cases ha : a ∈ attrs
  · obtain ⟨share, hshare⟩ := HashMap.exists_lookup_of_mem ((h.mem a).2 ha)
    rw [if_pos ha, hshare]
    exact Option.Rel.some (h.component a share hshare)
  · have hnone : usk.attributes.lookup a = none :=
      AList.lookup_eq_none.2 fun hmem => ha ((h.mem a).1 hmem)
    rw [if_neg ha, hnone]
    exact Option.Rel.none

omit [DecidableEq F] [AddCommGroup G₁] [Module F G₁] [AddCommGroup Gₜ] [Module F Gₜ] in
theorem Exponents.mono {pp pp' : PublicParams G₁ G₂ Gₜ} (h : Extends pp pp')
    {usk : UserSecretKey G₂} {rho : String → Option F} (hrho : Exponents pp usk rho) :
    Exponents pp' usk rho := by
  intro a
  exact rel_imp (fun _ _ hs => hs.mono h) (hrho a)

omit [DecidableEq F] in
theorem lookup_leafResultsOf (usk : UserSecretKey G₂) {leaves : List (LeafCiphertext G₁)}
    (hnd : (leaves.map LeafCiphertext.path).Nodup) {leaf : LeafCiphertext G₁} (h : leaf ∈ leaves) :
    (leafResultsOf C usk leaves).lookup leaf.path =
      (usk.attributes.lookup leaf.attr).map fun share => leafValue C share leaf := by
  -- one iteration, and the loop on leaves with other paths
  have hne : ∀ (m : LeafResult Gₜ) (l : LeafCiphertext G₁) (path : List ℕ), path ≠ l.path →
      (recordLeaf C usk m l).lookup path = m.lookup path := by
    intro m l path hpath
    unfold recordLeaf
    cases usk.attributes.lookup l.attr with
    | none => rfl
    | some share => exact AList.lookup_insert_ne hpath
  have hframe : ∀ (ls : List (LeafCiphertext G₁)) (m : LeafResult Gₜ) (path : List ℕ),
      path ∉ ls.map LeafCiphertext.path → (ls.foldl (recordLeaf C usk) m).lookup path = m.lookup path := by
    intro ls
    induction ls with
    | nil => intro m path _; rfl
    | cons l ls ih =>
      intro m path hpath
      simp only [List.map_cons, List.mem_cons, not_or] at hpath
      rw [List.foldl_cons, ih _ _ hpath.2, hne m l path hpath.1]
  have loop : ∀ (ls : List (LeafCiphertext G₁)) (m : LeafResult Gₜ),
      (ls.map LeafCiphertext.path).Nodup → leaf ∈ ls → m.lookup leaf.path = none →
        (ls.foldl (recordLeaf C usk) m).lookup leaf.path =
          (usk.attributes.lookup leaf.attr).map fun share => leafValue C share leaf := by
    intro ls
    induction ls with
    | nil => intro m _ hmem; simp at hmem
    | cons l ls ih =>
      intro m hls hmem hm
      rw [List.map_cons, List.nodup_cons] at hls
      rw [List.foldl_cons]
      rcases List.mem_cons.1 hmem with rfl | hmem
      · rw [hframe ls _ _ hls.1]
        unfold recordLeaf
        cases usk.attributes.lookup leaf.attr with
        | none => exact hm
        | some share => exact AList.lookup_insert _
      · apply ih _ hls.2 hmem
        rw [hne m l _ fun heq => hls.1 (heq ▸ List.mem_map_of_mem hmem), hm]
  exact loop leaves ∅ hnd h (AList.lookup_empty _)

variable {C D}

omit [AddCommGroup G₂] [Module F G₂] [AddCommGroup Gₜ] [Module F Gₜ] [DecidableEq F] in
/-- The leaves of a ciphertext have the paths of the shares. -/
theorem map_path_leaves {pp : PublicParams G₁ G₂ Gₜ} {shares : List (Share F)}
    {leaves : List (LeafCiphertext G₁)} (hleaves : List.Forall₂ (LeafOf pp) shares leaves) :
    leaves.map LeafCiphertext.path = shares.map Share.path := by
  induction hleaves with
  | nil => rfl
  | cons h _ ih =>
    obtain ⟨c, -, rfl⟩ := h
    rw [List.map_cons, List.map_cons, ih]

omit [AddCommGroup G₂] [Module F G₂] [AddCommGroup Gₜ] [Module F Gₜ] [DecidableEq F] in
/-- Every share has a leaf. -/
theorem exists_leafOf {pp : PublicParams G₁ G₂ Gₜ} {shares : List (Share F)}
    {leaves : List (LeafCiphertext G₁)} (hleaves : List.Forall₂ (LeafOf pp) shares leaves)
    {share : Share F} (h : share ∈ shares) : ∃ leaf ∈ leaves, LeafOf pp share leaf := by
  induction hleaves with
  | nil => simp at h
  | cons hleaf _ ih =>
    rcases List.mem_cons.1 h with rfl | h
    · exact ⟨_, by simp, hleaf⟩
    · obtain ⟨leaf, hmem, hleaf⟩ := ih h
      exact ⟨leaf, by simp [hmem], hleaf⟩

omit [DecidableEq F] in
/-- The pairing values of the held leaves are the shares times the exponents of the key. -/
theorem agrees_leafResultsOf {msk : MasterSecret F} {pp : PublicParams G₁ G₂ Gₜ}
    (hpp : Deployed C msk pp) {shares : List (Share F)} {leaves : List (LeafCiphertext G₁)}
    (hleaves : List.Forall₂ (LeafOf pp) shares leaves) (hnd : (shares.map Share.path).Nodup)
    {usk : UserSecretKey G₂} {rho : String → Option F} (hrho : Exponents pp usk rho) :
    Agrees (leafResultsOf C usk leaves) rho (C.pairing C.g1 C.g2) shares := by
  have hpaths := map_path_leaves hleaves
  intro share hshare
  obtain ⟨leaf, hleaf, c, hc, rfl⟩ := exists_leafOf hleaves hshare
  have hval := lookup_leafResultsOf C usk (hpaths ▸ hnd) hleaf
  apply hval.trans
  obtain ⟨t, rfl⟩ := hpp.commitment _ c hc
  have hrel := hrho share.attr
  revert hrel
  simp only
  generalize usk.attributes.lookup share.attr = held
  generalize rho share.attr = r
  intro hrel
  cases hrel with
  | none => rfl
  | some hcomp =>
    obtain ⟨c', rJ, hc', rfl⟩ := hcomp
    obtain rfl : c' = ⟨t • C.g1, t • C.g2⟩ := Option.some.inj (hc'.symm.trans hc)
    simp only [Option.map_some, leafValue, hpp.g1, hpp.g2, map_add, map_smul, LinearMap.smul_apply]
    congr 1
    module

/-- **The recovered blinding value**, for a key with exponents `rho`, on trees that fit the
field. -/
theorem recoverBlinding_eq {n : ℕ} (hF : IndicesDistinct F n) {msk : MasterSecret F}
    {pp : PublicParams G₁ G₂ Gₜ} (hpp : Deployed C msk pp) {dek : ByteArr 32} {tree : AccessTree}
    (htree : tree.ChildrenLt n) {s : F} {rng : Rng F} {ct : AbeCiphertext G₁}
    (hct : Encrypted C A D pp dek tree s rng ct) {usk : UserSecretKey G₂} {rho : String → Option F}
    (hrho : Exponents pp usk rho) :
    recoverBlinding C usk ct =
      match recovered rho tree s rng with
      | some v => .ok (C.pairing ct.c usk.d - v • C.pairing C.g1 C.g2)
      | none => Outcome.err .policyNotSatisfied := by
  have hagrees := agrees_leafResultsOf hpp hct.leaves (nodup_paths tree s rng []) hrho
  rw [recoverBlinding, hct.tree_eq]
  simp only [recombine_eq hF htree, recombined_eq hagrees]
  cases recovered rho tree s rng <;> rfl

omit [DecidableEq F] in
/-- The pairing of `c` and of the `d` of a key with exponent `r`. -/
theorem pairing_c_d {msk : MasterSecret F} (hbeta : msk.beta ≠ 0) {pp pp' : PublicParams G₁ G₂ Gₜ}
    (hpp : Deployed C msk pp) (hpp' : Deployed C msk pp') (s r : F) :
    C.pairing (s • pp'.h) (((msk.alpha + r) * msk.beta⁻¹) • pp.g2) =
      s • pp'.eggAlpha + (s * r) • C.pairing C.g1 C.g2 := by
  rw [hpp'.h, hpp.g2, hpp'.eggAlpha]
  simp only [map_smul, LinearMap.smul_apply, smul_smul]
  rw [← add_smul]
  congr 1
  field_simp

end SecureABE.Core
