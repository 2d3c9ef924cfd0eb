import SecureABE.Core.Collusion
import SecureABE.Core.ZeroGates

/-!
# Keys that nobody issued

What an arbitrary key opens, be it issued, edited, spliced or made up. Its attributes and the tree
decide which leaves recombination uses (`usedLeaves`), and each used component either goes with the
`d` of the key or does not (`Matches`, an equation between pairings of public values). Three cases
are left: the attributes do not satisfy the tree and nothing is opened; all used components match
and everything is; or the key opens exactly one in `|F|` of the ciphertexts (`card_opened_mul_card`).
-/

namespace SecureABE.Core

open Rust SecureABE.Policy Threshold Interpolation

/-! ## The leaves that are used -/

mutual

/-- The leaves that recombination uses for the attributes `H`, on a tree that they satisfy. -/
def usedLeaves (H : List String) : AccessTree → List String
  | .leaf a => [a]
  | .gate threshold children => usedOf H threshold children

/-- The used leaves of the first `n` satisfied trees of a list. -/
def usedOf (H : List String) : ℕ → List AccessTree → List String
  | 0, _ => []
  | _ + 1, [] => []
  | n + 1, c :: cs =>
    if c.isSatisfiedBy H then usedLeaves H c ++ usedOf H n cs else usedOf H (n + 1) cs

end

theorem mem_usedOf {H : List String} {k : ℕ} {cs : List AccessTree} {a : String} :
    a ∈ usedOf H k cs ↔
      ∃ j ∈ chosen k (pattern H cs), ∃ c, cs[j]? = some c ∧ a ∈ usedLeaves H c := by
  induction cs generalizing k with
  | nil => cases k <;> simp [usedOf]
  | cons c cs ih =>
    cases k with
    | zero => simp [usedOf, chosen]
    | succ k =>
      have hcons : pattern H (c :: cs) =
          (if c.isSatisfiedBy H then some () else none) :: pattern H cs := rfl
      unfold usedOf
      rw [hcons]
      split_ifs with hsat
      · rw [List.mem_append, ih]
        constructor
        · rintro (ha | ⟨j, hj, d, hd, ha⟩)
          · exact ⟨0, mem_chosen_some_cons.2 (Or.inl rfl), c, rfl, ha⟩
          · exact ⟨j + 1, mem_chosen_some_cons.2 (Or.inr ⟨j, hj, rfl⟩), d, hd, ha⟩
        · rintro ⟨j, hj, d, hd, ha⟩
          rcases mem_chosen_some_cons.1 hj with rfl | ⟨i, hi, rfl⟩
          · obtain rfl : c = d := by simpa using hd
            exact Or.inl ha
          · exact Or.inr ⟨i, hi, d, hd, ha⟩
      · rw [ih]
        constructor
        · rintro ⟨j, hj, d, hd, ha⟩
          exact ⟨j + 1, mem_chosen_none_cons.2 ⟨j, hj, rfl⟩, d, hd, ha⟩
        · rintro ⟨j, hj, d, hd, ha⟩
          obtain ⟨i, hi, rfl⟩ := mem_chosen_none_cons.1 hj
          exact ⟨i, hi, d, hd, ha⟩

/-- The used leaves are leaves, of held attributes. -/
theorem mem_of_mem_usedLeaves {H : List String} {t : AccessTree} (hsat : t.isSatisfiedBy H = true)
    {a : String} (ha : a ∈ usedLeaves H t) : a ∈ t.leaves ∧ a ∈ H := by
  induction t using AccessTree.induct with
  | leaf b =>
    obtain rfl := List.mem_singleton.1 ha
    exact ⟨List.mem_singleton_self a, by simpa using hsat⟩
  | gate k cs ih =>
    obtain ⟨j, hj, c, hc, hac⟩ := mem_usedOf.1 ha
    obtain ⟨c', hmem, hc', hsat'⟩ := exists_chosen hj
    obtain rfl := Option.some.inj (hc.symm.trans hc')
    obtain ⟨hleaf, hH⟩ := ih c hmem hsat' hac
    rw [AccessTree.leaves_gate]
    exact ⟨List.mem_flatMap.2 ⟨c, hmem, hleaf⟩, hH⟩

variable {F : Type} [Field F]

/-! ## The recombined scalar -/

/-- Used shares of exponent zero recombine to zero, whatever the others are. -/
theorem recovered_of_used_eq_zero {rho : String → Option F} {H : List String}
    (hH : ∀ a, (rho a).isSome = decide (a ∈ H)) {t : AccessTree} (hsat : t.isSatisfiedBy H = true)
    (hused : ∀ a ∈ usedLeaves H t, rho a = some 0) (s : F) (rng : Rng F) :
    recovered rho t s rng = some 0 := by
  induction t using AccessTree.induct generalizing s rng with
  | leaf a =>
    have ha : rho a = some 0 := hused a (List.mem_singleton_self a)
    rw [recovered, ha, Option.map_some, zero_mul]
  | gate k cs ih =>
    have hcount : k ≤ (gateValues rho k cs s rng).countP Option.isSome := by
      have hsome := isSome_recovered hH (.gate k cs) s rng
      rw [hsat, recovered, isSome_combine, decide_eq_true_eq] at hsome
      exact hsome
    have hzero : ∀ j ∈ chosen k (pattern H cs), valueAt (gateValues rho k cs s rng) j = some 0 := by
      intro j hj
      obtain ⟨c, hmem, hc, hcsat⟩ := exists_chosen hj
      unfold gateValues
      rw [valueAt_recoveredOf_gate hc]
      apply ih c hmem hcsat
      intro a ha
      exact hused a (mem_usedOf.2 ⟨j, hj, c, hc, ha⟩)
    unfold recovered
    apply (combine_eq_some hcount).trans
    rw [chosen_gateValues hH]
    refine congrArg some (Finset.sum_eq_zero fun j hj => ?_)
    rw [hzero j hj, Option.getD_some, smul_zero]

/-- **The direction of a used leaf**: where its share has a nonzero exponent, the recombined scalar
moves with a nonzero slope along some change of secret and coefficients. -/
theorem exists_direction_of_used {n : ℕ} (hF : IndicesDistinct F n) {rho : String → Option F}
    {H : List String} (hH : ∀ a, (rho a).isSome = decide (a ∈ H)) {t : AccessTree}
    (hpos : t.Positive) (ht : t.ChildrenLt n) (hsat : t.isSatisfiedBy H = true) {a : String}
    (ha : a ∈ usedLeaves H t) (hne : rho a ≠ some 0) :
    ∃ (ds : F) (mask : Rng F) (g : F), g ≠ 0 ∧ Direction rho t ds mask g := by
  induction t using AccessTree.induct with
  | leaf b =>
    obtain rfl := List.mem_singleton.1 ha
    have hsome : (rho a).isSome := by rwa [hH, ← AccessTree.isSatisfiedBy_leaf]
    obtain ⟨e, he⟩ := Option.isSome_iff_exists.1 hsome
    refine ⟨1, 0, e, fun h => hne (by rw [he, h]), fun s rng x => ?_⟩
    unfold recovered
    rw [he, Option.map_some, Option.map_some, Option.map_some, mul_one, mul_add, mul_comm e x]
  | gate k cs ih =>
    obtain ⟨-, hposc⟩ := AccessTree.positive_gate.1 hpos
    obtain ⟨hlen, hcs⟩ := AccessTree.childrenLt_gate.1 ht
    rw [AccessTree.isSatisfiedBy_gate, decide_eq_true_eq] at hsat
    obtain ⟨j, hj, c, hc, hac⟩ := mem_usedOf.1 ha
    obtain ⟨c', hmem, hc', hcsat⟩ := exists_chosen hj
    obtain rfl := Option.some.inj (hc.symm.trans hc')
    obtain ⟨ds, mask, g, hg, hdir⟩ := ih c hmem (hposc c hmem) (hcs c hmem) hcsat hac
    obtain ⟨w, mask', hw, hgate⟩ := exists_gateDirection hF hH hlen hsat hc hj hdir
    exact ⟨w * ds, mask', w * g, mul_ne_zero hw hg, hgate⟩

/-! ## Arbitrary keys -/

variable {G₁ G₂ Gₜ : Type} [AddCommGroup G₁] [Module F G₁] [AddCommGroup G₂] [Module F G₂]
  [AddCommGroup Gₜ] [Module F Gₜ] [DecidableEq F]
variable {C : Curve F G₁ G₂ Gₜ} {A : Cipher} {D : Codec} {msk : MasterSecret F}
  {pp : PublicParams G₁ G₂ Gₜ} {usk : UserSecretKey G₂}

/-- The component of an attribute goes with the `d` of its key: on a share of one, the two blind the
same way. -/
def Matches (C : Curve F G₁ G₂ Gₜ) (pp : PublicParams G₁ G₂ Gₜ) (usk : UserSecretKey G₂)
    (a : String) : Prop :=
  ∀ c share, pp.attributes.lookup a = some c → usk.attributes.lookup a = some share →
    leafValue C share ⟨[], a, pp.g1, c.t1⟩ = C.pairing pp.h usk.d - pp.eggAlpha

section

omit [DecidableEq F]

/-- Every pair of group elements is a component, for some exponent. -/
theorem exists_component (hpp : Deployed C msk pp) {a : String} (ha : a ∈ pp.attributes)
    (share : AttributeKeyShare G₂) : ∃ r : F, Component pp a r share := by
  obtain ⟨c, hc⟩ := HashMap.exists_lookup_of_mem ha
  obtain ⟨t, rfl⟩ := hpp.commitment a c hc
  obtain ⟨x, hx⟩ := C.g2_spans share.dJ
  obtain ⟨y, hy⟩ := C.g2_spans share.dJPrime
  refine ⟨x - y * t, _, y, hc, ?_⟩
  cases share with
  | mk dJ dJPrime =>
    dsimp only at hx hy
    rw [hx, hy, hpp.g2, smul_smul, ← add_smul, sub_add_cancel]

/-- Every key on registered attributes has exponents. -/
theorem exists_exponents (hpp : Deployed C msk pp) (hreg : ∀ a ∈ usk.attributes, a ∈ pp.attributes) :
    ∃ rho : String → Option F, Exponents pp usk rho := by
  have hrel : ∀ a, ∃ x : Option F, Option.Rel (Component pp a) x (usk.attributes.lookup a) := by
    intro a
    cases hshare : usk.attributes.lookup a with
    | none => exact ⟨none, Option.Rel.none⟩
    | some share =>
      obtain ⟨r, hr⟩ := exists_component hpp (hreg a (HashMap.mem_of_lookup hshare)) share
      exact ⟨some r, Option.Rel.some hr⟩
  choose rho hrho using hrel
  exact ⟨rho, hrho⟩

/-- A component matches exactly if its exponent is the one of `d`. -/
theorem matches_iff (hpp : Deployed C msk pp) {rho : String → Option F} (hrho : Exponents pp usk rho)
    {r : F} (hr : C.pairing pp.h usk.d - pp.eggAlpha = r • C.pairing C.g1 C.g2) {a : String}
    (ha : a ∈ usk.attributes) : Matches C pp usk a ↔ rho a = some r := by
  obtain ⟨share, hshare⟩ := HashMap.exists_lookup_of_mem ha
  have hrel := hrho a
  rw [hshare] at hrel
  obtain ⟨x, hx, c, rJ, hc, rfl⟩ : ∃ x, rho a = some x ∧ Component pp a x share := by
    generalize rho a = exponent at hrel
    cases hrel with
    | some h => exact ⟨_, rfl, h⟩
  obtain ⟨t, rfl⟩ := hpp.commitment a c hc
  have hvalue : leafValue C ⟨x • pp.g2 + rJ • t • C.g2, rJ • pp.g2⟩ ⟨[], a, pp.g1, t • C.g1⟩ =
      x • C.pairing C.g1 C.g2 := by
    simp only [leafValue, hpp.g1, hpp.g2, map_add, map_smul, LinearMap.smul_apply, smul_smul]
    rw [add_sub_cancel_right]
  have hcancel : x • C.pairing C.g1 C.g2 = r • C.pairing C.g1 C.g2 ↔ x = r := by
    rw [← sub_eq_zero, ← sub_smul, smul_eq_zero, or_iff_left C.pairing_ne_zero, sub_eq_zero]
  rw [hx, Option.some_inj, ← hcancel, ← hr, ← hvalue]
  constructor
  · intro h
    exact h _ _ hc hshare
  · intro h c' share' hc' hshare'
    obtain rfl := Option.some.inj (hc.symm.trans hc')
    obtain rfl := Option.some.inj (hshare.symm.trans hshare')
    exact h

/-- Further attributes do not change which components match. -/
theorem matches_of_extends {pp' : PublicParams G₁ G₂ Gₜ} (hext : Extends pp pp') {a : String}
    (ha : a ∈ pp.attributes) : Matches C pp' usk a ↔ Matches C pp usk a := by
  obtain ⟨c, hc⟩ := HashMap.exists_lookup_of_mem ha
  unfold Matches
  rw [hext.lookup a c hc, hc, hext.g1, hext.h, hext.eggAlpha]

end

/-- The blinding value that a key recovers, off by the recombination of the differences to the
exponent of its `d`. -/
theorem recoverBlinding_eq_sub {n : ℕ} (hF : IndicesDistinct F n) (hpp : Deployed C msk pp)
    {rho : String → Option F} (hrho : Exponents pp usk rho) {r : F}
    (hr : C.pairing pp.h usk.d - pp.eggAlpha = r • C.pairing C.g1 C.g2) {dek : ByteArr 32}
    {tree : AccessTree} (hpos : tree.Positive) (htree : tree.ChildrenLt n) {s : F} {rng : Rng F}
    {ct : AbeCiphertext G₁} (hct : Encrypted C A D pp dek tree s rng ct) :
    recoverBlinding C usk ct =
      match recovered (fun a => (rho a).map (· - r)) tree s rng with
      | some v => .ok (s • pp.eggAlpha - v • C.pairing C.g1 C.g2)
      | none => Outcome.err .policyNotSatisfied := by
  rw [recoverBlinding_eq hF hpp htree hct hrho, recovered_sub hF hpos htree]
  cases recovered rho tree s rng with
  | none => rfl
  | some v =>
    have hd : C.pairing pp.h usk.d = pp.eggAlpha + r • C.pairing C.g1 C.g2 := by
      rw [← hr, add_sub_cancel]
    simp only [Option.map_some, hct.c_eq, map_smul, LinearMap.smul_apply, hd]
    congr 1
    module

/-- A key opens a ciphertext exactly if this recombination is zero, where the encryption opens under
the right key only and different blinding values give different keys. -/
theorem decryptKey_eq_ok_iff_recovered {n : ℕ} (hF : IndicesDistinct F n) (hA : A.Correct)
    (hbind : A.Binding) (hkdf : Function.Injective (kdf C A)) (hpp : Deployed C msk pp)
    {rho : String → Option F} (hrho : Exponents pp usk rho) {r : F}
    (hr : C.pairing pp.h usk.d - pp.eggAlpha = r • C.pairing C.g1 C.g2) {dek : ByteArr 32}
    {tree : AccessTree} (hpos : tree.Positive) (htree : tree.ChildrenLt n) {s : F} {rng : Rng F}
    {ct : AbeCiphertext G₁} (hct : Encrypted C A D pp dek tree s rng ct)
    (pp' : PublicParams G₁ G₂ Gₜ) :
    decryptKey C A D pp' usk ct = .ok dek ↔
      recovered (fun a => (rho a).map (· - r)) tree s rng = some 0 := by
  have hblinding := recoverBlinding_eq_sub hF hpp hrho hr hpos htree hct
  cases hrec : recovered (fun a => (rho a).map (· - r)) tree s rng with
  | none =>
    rw [hrec] at hblinding
    rw [decryptKey_of_err hblinding]
    simp [Outcome.err]
  | some v =>
    rw [hrec] at hblinding
    by_cases hv : v = 0
    · subst hv
      simp only [zero_smul, sub_zero] at hblinding
      exact iff_of_true (decryptKey_of_blinding hA hct hblinding) rfl
    · have hne : s • pp.eggAlpha - v • C.pairing C.g1 C.g2 ≠ s • pp.eggAlpha := by
        rw [Ne, sub_eq_self, smul_eq_zero, or_iff_left C.pairing_ne_zero]
        exact hv
      rw [decryptKey_of_kdf_ne hbind hct hblinding fun h => hne (hkdf h)]
      exact iff_of_false (fun h => by cases h) fun h => hv (Option.some.inj h)

/-! ## What a key opens -/

/-- The key opens the ciphertext of `dek` that is made with the random scalars `c`. -/
def Opens (C : Curve F G₁ G₂ Gₜ) (A : Cipher) (D : Codec) (pp : PublicParams G₁ G₂ Gₜ)
    (usk : UserSecretKey G₂) (dek : ByteArr 32) (tree : AccessTree) (nonce : ByteArr 12)
    (c : Fin (1 + coeffCount tree) → F) : Prop :=
  ∃ ct rng', encryptKey C A D pp dek tree (tape c) nonce = .ok (ct, rng') ∧
    decryptKey C A D pp usk ct = .ok dek

omit [DecidableEq F] in
/-- The parameters with further attributes, so that a key has registered attributes only. -/
theorem exists_extends_registered (hpp : Deployed C msk pp) (usk : UserSecretKey G₂) :
    ∃ pp', Deployed C msk pp' ∧ Extends pp pp' ∧ ∀ a ∈ usk.attributes, a ∈ pp'.attributes := by
  let calls : List (String × Rng F) := usk.attributeNames.map fun a => (a, fun _ => 0)
  refine ⟨registerAll pp calls, hpp.registerAll calls, extends_registerAll pp calls, fun a ha => ?_⟩
  have hname : a ∈ usk.attributeNames := HashMap.mem_keys_iter.2 ha
  rw [mem_registerAll, List.map_map]
  apply Or.inl
  simpa using hname

/-- **What any key finds** in a ciphertext is the wrapped key, and its attributes satisfy the tree, where
the encryption opens under the right key only. -/
theorem of_decryptKey_eq_ok {n : ℕ} (hF : IndicesDistinct F n) (hA : A.Correct) (hbind : A.Binding)
    (hpp : Deployed C msk pp) {dek dek' : ByteArr 32} {tree : AccessTree} (htree : tree.ChildrenLt n)
    {s : F} {rng : Rng F} {ct : AbeCiphertext G₁} (hct : Encrypted C A D pp dek tree s rng ct)
    {pp' : PublicParams G₁ G₂ Gₜ} (h : decryptKey C A D pp' usk ct = .ok dek') :
    tree.isSatisfiedBy usk.attributeNames = true ∧ dek' = dek := by
  obtain ⟨ppAll, hppAll, hext, hreg⟩ := exists_extends_registered hpp usk
  obtain ⟨rho, hrho⟩ := exists_exponents hppAll hreg
  have hblinding := recoverBlinding_eq hF hppAll htree (hct.mono C D hext) hrho
  have hH : ∀ a, (rho a).isSome = decide (a ∈ usk.attributeNames) := fun a => by rw [hrho.isSome]
  have hsome := isSome_recovered hH tree s rng
  cases hrec : recovered rho tree s rng with
  | none =>
    rw [hrec] at hblinding
    rw [decryptKey_of_err hblinding] at h
    cases h
  | some v =>
    rw [hrec] at hblinding hsome
    refine ⟨hsome.symm, ?_⟩
    by_cases hkdf : kdf C A (C.pairing ct.c usk.d - v • C.pairing C.g1 C.g2) = kdf C A (s • pp.eggAlpha)
    · rw [decryptKey_of_kdf_eq hA hct hblinding hkdf] at h
      exact (Except.ok.inj h).symm
    · rw [decryptKey_of_kdf_ne hbind hct hblinding hkdf] at h
      cases h

/-- **What an arbitrary key opens**: nothing, if its attributes do not satisfy the tree; everything, if
they do and the components that recombination uses match; and otherwise exactly one in `|F|` of the
ciphertexts. -/
theorem card_opened_mul_card [Finite F] {p : ℕ} [CharP F p] (hA : A.Correct) (hbind : A.Binding)
    (hkdf : Function.Injective (kdf C A)) (hpp : Deployed C msk pp) (usk : UserSecretKey G₂)
    {tree : AccessTree} (hpos : tree.Positive) (htree : tree.ChildrenLt p)
    (hleaves : ∀ a ∈ tree.leaves, a ∈ pp.attributes) (dek : ByteArr 32) (nonce : ByteArr 12) :
    (tree.isSatisfiedBy usk.attributeNames = false → ∀ c, ¬ Opens C A D pp usk dek tree nonce c) ∧
    (tree.isSatisfiedBy usk.attributeNames = true →
      (∀ a ∈ usedLeaves usk.attributeNames tree, Matches C pp usk a) →
        ∀ c, Opens C A D pp usk dek tree nonce c) ∧
    (tree.isSatisfiedBy usk.attributeNames = true →
      (∃ a ∈ usedLeaves usk.attributeNames tree, ¬ Matches C pp usk a) →
        Nat.card {c // Opens C A D pp usk dek tree nonce c} * Nat.card F =
          Nat.card F ^ (1 + coeffCount tree)) := by
  have hF : IndicesDistinct F p := IndicesDistinct.of_charP le_rfl
  obtain ⟨pp', hpp', hext, hreg⟩ := exists_extends_registered hpp usk
  obtain ⟨rho, hrho⟩ := exists_exponents hpp' hreg
  obtain ⟨r, hr⟩ := C.gt_spans (C.pairing pp'.h usk.d - pp'.eggAlpha)
  -- the differences of the exponents, as a function of the random scalars
  let delta : String → Option F := fun a => (rho a).map (· - r)
  let value : (Fin (1 + coeffCount tree) → F) → Option F := fun c =>
    recovered delta tree (tape c 0) ((tape c).drop 1)
  have hopens : ∀ c, Opens C A D pp usk dek tree nonce c ↔ value c = some 0 := by
    intro c
    obtain ⟨ct, hrun, hct⟩ := encryptKey_spec C D hA dek hleaves (tape c) nonce
    have hiff := decryptKey_eq_ok_iff_recovered hF hA hbind hkdf hpp' hrho hr hpos htree
      (hct.mono C D hext) pp
    constructor
    · rintro ⟨ct', rng', hrun', hdec⟩
      obtain ⟨rfl, -⟩ := Prod.mk.inj (Except.ok.inj (hrun.symm.trans hrun'))
      exact hiff.1 hdec
    · intro hzero
      exact ⟨ct, _, hrun, hiff.2 hzero⟩
  have hH : ∀ a, (delta a).isSome = decide (a ∈ usk.attributeNames) := fun a => by
    rw [Option.isSome_map, hrho.isSome]
  have hmatch : tree.isSatisfiedBy usk.attributeNames = true →
      ∀ a ∈ usedLeaves usk.attributeNames tree, Matches C pp usk a ↔ delta a = some 0 := by
    intro hsat a ha
    obtain ⟨hleaf, hheld⟩ := mem_of_mem_usedLeaves hsat ha
    rw [← matches_of_extends hext (hleaves a hleaf),
      matches_iff hpp' hrho hr (HashMap.mem_keys_iter.1 hheld), Option.map_eq_some_iff]
    constructor
    · intro h
      exact ⟨r, h, sub_self r⟩
    · rintro ⟨x, hx, hzero⟩
      rw [hx, sub_eq_zero.1 hzero]
  refine ⟨fun hsat c => ?_, fun hsat hall c => ?_, fun hsat hex => ?_⟩
  · rw [hopens]
    intro hzero
    have hsome := isSome_recovered hH tree (tape c 0) ((tape c).drop 1)
    rw [hsat] at hsome
    change (value c).isSome = false at hsome
    rw [hzero] at hsome
    cases hsome
  · rw [hopens]
    apply recovered_of_used_eq_zero hH hsat
    intro a ha
    exact (hmatch hsat a ha).1 (hall a ha)
  · obtain ⟨a, ha, hnot⟩ := hex
    rw [hmatch hsat a ha] at hnot
    obtain ⟨ds, mask, g, hg, hdir⟩ := exists_direction_of_used hF hH hpos htree hsat ha hnot
    obtain ⟨d, hd⟩ := hdir.exists_tape
    have hcard : Nat.card {c // Opens C A D pp usk dek tree nonce c} =
        Nat.card {c // value c = some 0} := Nat.card_congr (Equiv.subtypeEquivRight hopens)
    have hsome : ∀ c, (value c).isSome := fun c => by
      rw [isSome_recovered hH, hsat]
    rw [hcard, Translation.card_zeros_mul_card hg (fun c x => (hd c x).2) hsome, Nat.card_fun,
      Nat.card_eq_fintype_card (α := Fin _), Fintype.card_fin]

/-- A key that nobody issued: zeros under two registered names. -/
def zeroKey : UserSecretKey Scalar :=
  ⟨"eve", 0, (AList.insert "a" ⟨0, 0⟩ (AList.insert "b" ⟨0, 0⟩ ∅) :
    HashMap String (AttributeKeyShare Scalar))⟩

theorem deployed_exampleCalls :
    Deployed exponents exampleSetup.1.2 (registerAll exampleSetup.1.1 exampleCalls) :=
  (deployed_setup exponents fun _ => 1).registerAll exampleCalls

theorem not_matches_zeroKey :
    ¬ Matches exponents (registerAll exampleSetup.1.1 exampleCalls) zeroKey "a" := by
  intro h
  have hmem : "a" ∈ (registerAll exampleSetup.1.1 exampleCalls).attributes :=
    (mem_registerAll _ exampleCalls "a").2 (Or.inl (by decide))
  obtain ⟨c, hc⟩ := HashMap.exists_lookup_of_mem hmem
  have heq := h c ⟨0, 0⟩ hc (AList.lookup_insert _)
  have hegg : (registerAll exampleSetup.1.1 exampleCalls).eggAlpha = (1 : Scalar) :=
    deployed_exampleCalls.eggAlpha.trans (one_mul _)
  simp only [leafValue, zeroKey, map_zero, sub_zero, zero_sub] at heq
  rw [hegg] at heq
  exact one_ne_zero (neg_eq_zero.1 heq.symm)

/-- The zeros open one in `|F|` of the ciphertexts for two attributes. -/
theorem card_opened_mul_card_zeroKey :
    Nat.card {c : Fin (1 + coeffCount bothTree) → Scalar // Opens exponents numberBoxes serdeJson
      (registerAll exampleSetup.1.1 exampleCalls) zeroKey exampleDek bothTree
      ⟨List.replicate 12 0, rfl⟩ c} * Nat.card Scalar = Nat.card Scalar ^ (1 + coeffCount bothTree) := by
  apply (card_opened_mul_card (p := scalarModulus) correct_numberBoxes binding_numberBoxes
    injective_kdf_numberBoxes deployed_exampleCalls zeroKey (by decide) (by decide) _ exampleDek _).2.2
  · rfl
  · exact ⟨"a", by decide, not_matches_zeroKey⟩
  · intro a ha
    rw [mem_registerAll]
    exact Or.inl (by simpa [bothTree, exampleCalls] using ha)

end SecureABE.Core
