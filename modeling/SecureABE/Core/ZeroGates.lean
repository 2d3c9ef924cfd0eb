import SecureABE.Core.Correctness
import SecureABE.Core.Directions

/-!
# Gates with threshold zero

`AccessTree::threshold(0, ..)` and `AccessTree::and(vec![])` build gates that every attribute set
satisfies. Sharing hands the children of such a gate its own secret, and recombination takes the empty
sum for its value.

* `meetsZeroGate`: whether recombination for an attribute set meets such a gate on its way down, through
  the first `threshold` satisfied children of each gate.
* `recovered_of_meetsZeroGate_eq_false`: where it meets none, it recovers the secret.
* `exists_zeroDirection`: where it meets one, the recovered scalar and the right one differ by a scalar
  that moves with a nonzero slope in some direction, so that they agree for at most one in `|F|` choices
  of the random scalars.
* `serves_iff`: the exact condition under which every key that satisfies a tree opens its ciphertexts.
-/

namespace SecureABE.Core

open Rust SecureABE.Policy Threshold Interpolation

variable {F : Type} [Field F]

/-! ## Meeting a gate with threshold zero -/

mutual

/-- Recombination for an attribute set meets a gate with threshold zero. -/
def meetsZeroGate (H : List String) : AccessTree → Bool
  | .leaf _ => false
  | .gate threshold children => decide (threshold = 0) || meetsZeroGateAmong H children threshold

/-- It meets one in the first `k` satisfied children of a gate. -/
def meetsZeroGateAmong (H : List String) : List AccessTree → ℕ → Bool
  | [], _ => false
  | _ :: _, 0 => false
  | c :: cs, k + 1 =>
    if c.isSatisfiedBy H then meetsZeroGate H c || meetsZeroGateAmong H cs k
    else meetsZeroGateAmong H cs (k + 1)

end

variable {H : List String}

theorem meetsZeroGate_gate {k : ℕ} {cs : List AccessTree} :
    meetsZeroGate H (.gate k cs) = true ↔ k = 0 ∨ ∃ j ∈ chosen k (pattern H cs), ∃ c, cs[j]? = some c ∧
      meetsZeroGate H c = true := by
  have hamong : meetsZeroGateAmong H cs k = true ↔ ∃ j ∈ chosen k (pattern H cs), ∃ c,
      cs[j]? = some c ∧ meetsZeroGate H c = true := by
    induction cs generalizing k with
    | nil => simp [meetsZeroGateAmong]
    | cons c cs ih =>
      cases k with
      | zero => simp [meetsZeroGateAmong, chosen]
      | succ k =>
        unfold meetsZeroGateAmong pattern
        rw [List.map_cons]
        by_cases hc : c.isSatisfiedBy H = true
        · rw [if_pos hc, if_pos hc, Bool.or_eq_true, ih]
          simp [mem_chosen_some_cons, pattern]
        · rw [if_neg hc, if_neg hc, ih]
          simp [mem_chosen_none_cons, pattern]
  rw [meetsZeroGate, Bool.or_eq_true, decide_eq_true_eq, hamong]

/-- Only the attributes at the leaves of a tree matter. -/
theorem meetsZeroGate_congr_leaves {A B : List String} {t : AccessTree}
    (h : ∀ a ∈ t.leaves, a ∈ A ↔ a ∈ B) : meetsZeroGate A t = meetsZeroGate B t := by
  induction t using AccessTree.induct with
  | leaf a => rfl
  | gate k cs ih =>
    have hcs : ∀ c ∈ cs, ∀ a ∈ c.leaves, a ∈ A ↔ a ∈ B := fun c hc a ha =>
      h a (by simpa using ⟨c, hc, ha⟩)
    have hpattern : pattern A cs = pattern B cs := by
      apply List.map_congr_left
      intro c hc
      rw [AccessTree.isSatisfiedBy_congr_leaves c (hcs c hc)]
    rw [Bool.eq_iff_iff, meetsZeroGate_gate, meetsZeroGate_gate, hpattern]
    refine or_congr_right (exists_congr fun j => and_congr_right fun _ => exists_congr fun c =>
      and_congr_right fun hc => ?_)
    have hmem := List.mem_of_getElem? hc
    rw [ih c hmem (hcs c hmem)]

/-! ## What recombination recovers -/

section Recovered

variable {n k : ℕ} {r : F} {rho : String → Option F} {cs : List AccessTree}

omit [Field F] in
/-- A key whose components all have the exponent `r` holds the attributes of `H`. -/
theorem isSome_exponent (hrho : ∀ a, rho a = if a ∈ H then some r else none) (a : String) :
    (rho a).isSome = decide (a ∈ H) := by
  rw [hrho]
  by_cases ha : a ∈ H <;> simp [ha]

/-- **Recombination inverts sharing** where it meets no gate with threshold zero. -/
theorem recovered_of_meetsZeroGate_eq_false (hF : IndicesDistinct F n)
    (hrho : ∀ a, rho a = if a ∈ H then some r else none) {t : AccessTree} (ht : t.ChildrenLt n)
    (hsat : t.isSatisfiedBy H = true) (hmeets : meetsZeroGate H t = false) (s : F) (rng : Rng F) :
    recovered rho t s rng = some (r * s) := by
  have hH := isSome_exponent hrho
  induction t using AccessTree.induct generalizing s rng with
  | leaf a =>
    rw [AccessTree.isSatisfiedBy_leaf, decide_eq_true_eq] at hsat
    rw [recovered, hrho, if_pos hsat, Option.map_some]
  | gate k cs ih =>
    obtain ⟨hlen, hcs⟩ := AccessTree.childrenLt_gate.1 ht
    rw [← Bool.not_eq_true, meetsZeroGate_gate] at hmeets
    push Not at hmeets
    obtain ⟨hk, hmeets⟩ := hmeets
    have hdeg : (sharePoly (k - 1) s rng).natDegree < k := by
      have := natDegree_sharePoly_le (k - 1) s rng
      omega
    have hcount : k ≤ (gateValues rho k cs s rng).countP Option.isSome := by
      have hsome := isSome_recovered hH (.gate k cs) s rng
      rw [recovered, isSome_combine, hsat] at hsome
      exact of_decide_eq_true hsome
    have hlength : (gateValues rho k cs s rng).length = cs.length := length_gateValues s rng
    have hinj : Set.InjOn (node F) (Set.Iio (gateValues rho k cs s rng).length) :=
      hlength ▸ hF.injOn_node hlen
    have hval : ∀ j ∈ chosen k (gateValues rho k cs s rng), valueAt (gateValues rho k cs s rng) j =
        some ((sharePoly (k - 1) s rng).eval (node F j) • r) := by
      intro j hj
      rw [chosen_gateValues hH] at hj
      obtain ⟨c, hmem, hc, hsatc⟩ := exists_chosen hj
      rw [gateValues, valueAt_recoveredOf_gate hc,
        ih c hmem (hcs c hmem) hsatc (by simpa using hmeets j hj c hc), node, indexScalar,
        eval_sharePoly_index, smul_eq_mul, mul_comm]
    unfold recovered
    apply (combine_eval_of_chosen hinj hdeg r hcount hval).trans
    rw [eval_zero_sharePoly, smul_eq_mul, mul_comm]

/-- Where recombination meets a gate with threshold zero, the recovered scalar does not move along with
the secret in some direction. -/
theorem exists_zeroDirection (hF : IndicesDistinct F n) (hr : r ≠ 0)
    (hrho : ∀ a, rho a = if a ∈ H then some r else none) {t : AccessTree} (ht : t.ChildrenLt n)
    (hsat : t.isSatisfiedBy H = true) (hmeets : meetsZeroGate H t = true) :
    ∃ (ds : F) (mask : Rng F) (g : F), g ≠ 0 ∧ Direction rho t ds mask (r * ds + g) := by
  induction t using AccessTree.induct with
  | leaf a => simp [meetsZeroGate] at hmeets
  | gate k cs ih =>
    obtain ⟨hlen, hcs⟩ := AccessTree.childrenLt_gate.1 ht
    by_cases hk : k = 0
    · -- the empty sum does not move at all
      subst hk
      have hzero : ∀ (s : F) (rng : Rng F), recovered rho (.gate 0 cs) s rng = some 0 := by
        intro s rng
        rw [recovered, combine_eq_some (Nat.zero_le _)]
        simp [chosen]
      refine ⟨1, 0, -r, neg_ne_zero.2 hr, fun s rng x => ?_⟩
      rw [hzero, hzero, Option.map_some]
      congr 1
      ring
    · obtain ⟨i, hi, c, hc, hmeetsc⟩ := (meetsZeroGate_gate.1 hmeets).resolve_left hk
      obtain ⟨c', hmem, hc', hsatc⟩ := exists_chosen hi
      obtain rfl : c' = c := Option.some.inj (hc'.symm.trans hc)
      obtain ⟨ds, mask, g, hg, hdir⟩ := ih c' hmem (hcs c' hmem) hsatc hmeetsc
      rw [AccessTree.isSatisfiedBy_gate, decide_eq_true_eq] at hsat
      obtain ⟨w, mask', hw, hgate⟩ :=
        exists_gateDirection hF (isSome_exponent hrho) hlen hsat hc hi hdir
      refine ⟨w * ds, mask', w * g, mul_ne_zero hw hg, ?_⟩
      have hslope : w * (r * ds + g) = r * (w * ds) + w * g := by ring
      rwa [hslope] at hgate

end Recovered

/-! ## Opening ciphertexts -/

variable {G₁ G₂ Gₜ : Type} [AddCommGroup G₁] [Module F G₁] [AddCommGroup G₂] [Module F G₂]
  [AddCommGroup Gₜ] [Module F Gₜ] [DecidableEq F]
variable {C : Curve F G₁ G₂ Gₜ} {A : Cipher} {D : Codec}

/-- The blinding value that a minted key recovers, where it recovers a scalar. -/
theorem recoverBlinding_of_recovered {n : ℕ} (hF : IndicesDistinct F n) {msk : MasterSecret F}
    (hbeta : msk.beta ≠ 0) {pp : PublicParams G₁ G₂ Gₜ} (hpp : Deployed C msk pp)
    {attrs : List String} {r : F} {usk : UserSecretKey G₂} (husk : Minted pp msk attrs r usk)
    {dek : ByteArr 32} {tree : AccessTree} (htree : tree.ChildrenLt n) {s : F} {rng : Rng F}
    {ct : AbeCiphertext G₁} (hct : Encrypted C A D pp dek tree s rng ct) {v : F}
    (hrec : recovered (fun a => if a ∈ attrs then some r else none) tree s rng = some v) :
    recoverBlinding C usk ct = .ok (s • pp.eggAlpha + (r * s - v) • C.pairing C.g1 C.g2) := by
  have hblinding := recoverBlinding_eq hF hpp htree hct husk.exponents
  rw [hrec] at hblinding
  simp only [hct.c_eq, husk.d, pairing_c_d hbeta hpp hpp] at hblinding
  rw [hblinding, add_sub_assoc, ← sub_smul, mul_comm r s]

/-- A key that recovers another scalar than the one that was shared is rejected, where the encryption
opens under the right key only and different blinding values give different keys. -/
theorem decryptKey_of_recovered_ne {n : ℕ} (hF : IndicesDistinct F n) (hbind : A.Binding)
    (hkdf : Function.Injective (kdf C A)) {msk : MasterSecret F} (hbeta : msk.beta ≠ 0)
    {pp : PublicParams G₁ G₂ Gₜ} (hpp : Deployed C msk pp) {attrs : List String} {r : F}
    {usk : UserSecretKey G₂} (husk : Minted pp msk attrs r usk) {dek : ByteArr 32}
    {tree : AccessTree} (htree : tree.ChildrenLt n) {s : F} {rng : Rng F} {ct : AbeCiphertext G₁}
    (hct : Encrypted C A D pp dek tree s rng ct) {v : F}
    (hrec : recovered (fun a => if a ∈ attrs then some r else none) tree s rng = some v)
    (hne : v ≠ r * s) : decryptKey C A D pp usk ct = Outcome.err .policyNotSatisfied := by
  have hblinding := recoverBlinding_of_recovered hF hbeta hpp husk htree hct hrec
  have hdiff : s • pp.eggAlpha + (r * s - v) • C.pairing C.g1 C.g2 ≠ s • pp.eggAlpha := by
    rw [Ne, add_eq_left, smul_eq_zero, or_iff_left C.pairing_ne_zero, sub_eq_zero]
    exact hne.symm
  exact decryptKey_of_kdf_ne hbind hct hblinding fun heq => hdiff (hkdf heq)

/-- A minted key opens a ciphertext exactly if it recovers the scalar that was shared. -/
theorem decryptKey_eq_ok_iff {n : ℕ} (hF : IndicesDistinct F n) (hA : A.Correct) (hbind : A.Binding)
    (hkdf : Function.Injective (kdf C A)) {msk : MasterSecret F} (hbeta : msk.beta ≠ 0)
    {pp : PublicParams G₁ G₂ Gₜ} (hpp : Deployed C msk pp) {attrs : List String} {r : F}
    {usk : UserSecretKey G₂} (husk : Minted pp msk attrs r usk) {dek : ByteArr 32}
    {tree : AccessTree} (htree : tree.ChildrenLt n) {s : F} {rng : Rng F} {ct : AbeCiphertext G₁}
    (hct : Encrypted C A D pp dek tree s rng ct) :
    decryptKey C A D pp usk ct = .ok dek ↔
      recovered (fun a => if a ∈ attrs then some r else none) tree s rng = some (r * s) := by
  cases hrec : recovered (fun a => if a ∈ attrs then some r else none) tree s rng with
  | none =>
    have hblinding := recoverBlinding_eq hF hpp htree hct husk.exponents
    rw [hrec] at hblinding
    rw [decryptKey_of_err hblinding]
    simp [Outcome.err]
  | some v =>
    by_cases hv : v = r * s
    · have hblinding := recoverBlinding_of_recovered hF hbeta hpp husk htree hct hrec
      rw [hv, sub_self, zero_smul, add_zero] at hblinding
      rw [decryptKey_of_blinding hA hct hblinding, hv]
      exact iff_of_true rfl rfl
    · rw [decryptKey_of_recovered_ne hF hbind hkdf hbeta hpp husk htree hct hrec hv]
      exact iff_of_false (fun h => by cases h) fun h => hv (Option.some.inj h)

/-- Every key with a nonzero exponent that satisfies the tree opens a ciphertext of `dek`, but for at
most one in `|F|` choices of the random scalars of the encryption. -/
def Serves (C : Curve F G₁ G₂ Gₜ) (A : Cipher) (D : Codec) (pp : PublicParams G₁ G₂ Gₜ)
    (msk : MasterSecret F) (tree : AccessTree) (dek : ByteArr 32) : Prop :=
  ∀ subject attrs (keyRng keyRng' : Rng F) usk nonce,
    keygen pp msk subject attrs keyRng = .ok (usk, keyRng') → keyRng 0 ≠ 0 →
      tree.isSatisfiedBy usk.attributeNames = true →
        Nat.card {c : Fin (1 + coeffCount tree) → F // ∃ ct rng',
          encryptKey C A D pp dek tree (tape c) nonce = .ok (ct, rng') ∧
          decryptKey C A D pp usk ct ≠ .ok dek} * Nat.card F ≤ Nat.card F ^ (1 + coeffCount tree)

section Serves

variable {pp : PublicParams G₁ G₂ Gₜ} {msk : MasterSecret F} {tree : AccessTree} {dek : ByteArr 32}
  {subject : String} {attrs : List String} {keyRng keyRng' : Rng F} {usk : UserSecretKey G₂}

omit [AddCommGroup G₁] [Module F G₁] [AddCommGroup Gₜ] [Module F Gₜ] in
theorem mem_attributeNames (hkey : keygen pp msk subject attrs keyRng = .ok (usk, keyRng'))
    (a : String) : a ∈ usk.attributeNames ↔ a ∈ attrs := by
  rw [UserSecretKey.attributeNames, HashMap.mem_keys_iter, (minted_of_keygen_eq_ok hkey).2.2.mem]

/-- Where recombination meets no gate with threshold zero, every ciphertext is opened. -/
theorem decryptKey_of_meetsZeroGate_eq_false {n : ℕ} (hF : IndicesDistinct F n) (hA : A.Correct)
    (hpp : Deployed C msk pp) (htree : tree.ChildrenLt n)
    (hkey : keygen pp msk subject attrs keyRng = .ok (usk, keyRng'))
    (hsat : tree.isSatisfiedBy usk.attributeNames = true)
    (hmeets : meetsZeroGate usk.attributeNames tree = false) {rng rng' : Rng F} {nonce : ByteArr 12}
    {ct : AbeCiphertext G₁} (hct : encryptKey C A D pp dek tree rng nonce = .ok (ct, rng')) :
    decryptKey C A D pp usk ct = .ok dek := by
  obtain ⟨hbeta, -, husk⟩ := minted_of_keygen_eq_ok hkey
  have henc := encrypted_of_eq_ok hct
  have hmem := mem_attributeNames hkey
  rw [AccessTree.isSatisfiedBy_congr hmem] at hsat
  rw [meetsZeroGate_congr_leaves fun a _ => hmem a] at hmeets
  have hrec : recovered (fun a => if a ∈ attrs then some (keyRng 0) else none) tree (rng 0)
      (rng.drop 1) = some (keyRng 0 * rng 0) :=
    recovered_of_meetsZeroGate_eq_false hF (fun _ => rfl) htree hsat hmeets (rng 0) (rng.drop 1)
  have hblinding := recoverBlinding_of_recovered hF hbeta hpp husk htree henc hrec
  rw [sub_self, zero_smul, add_zero] at hblinding
  exact decryptKey_of_blinding hA henc hblinding

/-- Where it meets one, a ciphertext is opened for at most one in `|F|` choices of the random
scalars. -/
theorem card_opened_mul_le [Finite F] {n : ℕ} (hF : IndicesDistinct F n) (hA : A.Correct)
    (hbind : A.Binding) (hkdf : Function.Injective (kdf C A)) (hpp : Deployed C msk pp)
    (htree : tree.ChildrenLt n) (hkey : keygen pp msk subject attrs keyRng = .ok (usk, keyRng'))
    (hr : keyRng 0 ≠ 0) (hsat : tree.isSatisfiedBy usk.attributeNames = true)
    (hmeets : meetsZeroGate usk.attributeNames tree = true) (D : Codec) (dek : ByteArr 32)
    (nonce : ByteArr 12) :
    Nat.card {c : Fin (1 + coeffCount tree) → F // ∃ ct rng',
        encryptKey C A D pp dek tree (tape c) nonce = .ok (ct, rng') ∧
        decryptKey C A D pp usk ct = .ok dek} * Nat.card F ≤
      Nat.card F ^ (1 + coeffCount tree) := by
  obtain ⟨hbeta, -, husk⟩ := minted_of_keygen_eq_ok hkey
  have hmem := mem_attributeNames hkey
  rw [AccessTree.isSatisfiedBy_congr hmem] at hsat
  rw [meetsZeroGate_congr_leaves fun a _ => hmem a] at hmeets
  let rho : String → Option F := fun a => if a ∈ attrs then some (keyRng 0) else none
  -- the difference of the recovered scalar and the right one, as a function of the random scalars
  let value : (Fin (1 + coeffCount tree) → F) → Option F := fun c =>
    (recovered rho tree (tape c 0) ((tape c).drop 1)).map (· - keyRng 0 * tape c 0)
  obtain ⟨ds, mask, g, hg, hdir⟩ := exists_zeroDirection hF hr (fun a => rfl) htree hsat hmeets
  obtain ⟨d, hd⟩ := Direction.exists_tape hdir
  have hmove : ∀ c (x : F), value (c + x • d) = (value c).map (· + x * g) := by
    intro c x
    obtain ⟨hs, hrec⟩ := hd c x
    simp only [value]
    rw [hrec, hs, Option.map_map, Option.map_map]
    refine congrArg (fun f => Option.map f _) (funext fun v => ?_)
    simp only [Function.comp_apply]
    ring
  have hsub : Nat.card {c : Fin (1 + coeffCount tree) → F // ∃ ct rng',
      encryptKey C A D pp dek tree (tape c) nonce = .ok (ct, rng') ∧
      decryptKey C A D pp usk ct = .ok dek} ≤ Nat.card {c // value c = some 0} := by
    refine Nat.card_le_card_of_injective (Subtype.map id ?_) (Subtype.map_injective _ fun _ _ h => h)
    rintro c ⟨ct, rng', hct, hdec⟩
    have hrec : recovered rho tree (tape c 0) ((tape c).drop 1) = some (keyRng 0 * tape c 0) :=
      (decryptKey_eq_ok_iff hF hA hbind hkdf hbeta hpp husk htree (encrypted_of_eq_ok hct)).1 hdec
    have hzero : value c = some 0 := by
      simp only [value]
      rw [hrec, Option.map_some, sub_self]
    exact hzero
  refine (Nat.mul_le_mul_right _ hsub).trans ((Translation.card_zeros_mul_card_le hg hmove).trans_eq ?_)
  rw [Nat.card_fun, Nat.card_eq_fintype_card (α := Fin _), Fintype.card_fin]

/-- Under each choice of the scalars the ciphertext is opened or it is not. -/
theorem card_opened_add_card_failed [Finite F] (hA : A.Correct)
    (hreg : ∀ a ∈ tree.leaves, a ∈ pp.attributes) (C : Curve F G₁ G₂ Gₜ) (D : Codec)
    (usk : UserSecretKey G₂) (dek : ByteArr 32) (nonce : ByteArr 12) :
    Nat.card {c : Fin (1 + coeffCount tree) → F // ∃ ct rng',
        encryptKey C A D pp dek tree (tape c) nonce = .ok (ct, rng') ∧
        decryptKey C A D pp usk ct = .ok dek} +
      Nat.card {c : Fin (1 + coeffCount tree) → F // ∃ ct rng',
        encryptKey C A D pp dek tree (tape c) nonce = .ok (ct, rng') ∧
        decryptKey C A D pp usk ct ≠ .ok dek} = Nat.card F ^ (1 + coeffCount tree) := by
  let Opened : (Fin (1 + coeffCount tree) → F) → Prop := fun c => ∃ ct rng',
    encryptKey C A D pp dek tree (tape c) nonce = .ok (ct, rng') ∧
    decryptKey C A D pp usk ct = .ok dek
  have hfailed : ∀ c : Fin (1 + coeffCount tree) → F, (∃ ct rng',
      encryptKey C A D pp dek tree (tape c) nonce = .ok (ct, rng') ∧
      decryptKey C A D pp usk ct ≠ .ok dek) ↔ ¬ Opened c := by
    intro c
    obtain ⟨ct, hct, -⟩ := encryptKey_spec C D hA dek hreg (tape c) nonce
    constructor
    · rintro ⟨ct₁, rng₁, h₁, hne⟩ ⟨ct₂, rng₂, h₂, heq⟩
      obtain ⟨rfl, -⟩ := Prod.mk.inj (Except.ok.inj (h₁.symm.trans h₂))
      exact hne heq
    · intro hnot
      exact ⟨ct, _, hct, fun heq => hnot ⟨ct, _, hct, heq⟩⟩
  rw [Nat.card_congr (Equiv.subtypeEquivRight hfailed)]
  change Nat.card {c // Opened c} + Nat.card {c // ¬ Opened c} = _
  classical
  rw [← Nat.card_sum, Nat.card_congr (Equiv.sumCompl Opened), Nat.card_fun,
    Nat.card_eq_fintype_card (α := Fin _), Fintype.card_fin]

omit [DecidableEq F] in
/-- A field whose indices up to two are distinct has more than two elements. -/
theorem two_lt_card [Finite F] {n : ℕ} (hF : IndicesDistinct F n) (hn : 2 < n) : 2 < Nat.card F := by
  have h1 : (1 : F) ≠ 0 := one_ne_zero
  have h2 : (2 : F) ≠ 0 := by simpa using hF 2 (by omega) hn
  have h12 : (1 : F) ≠ 2 := by
    intro h
    exact h1 (add_left_cancel (by rw [one_add_one_eq_two, ← h, add_zero] : (1 : F) + 1 = 1 + 0))
  have := Fintype.ofFinite F
  rw [Nat.card_eq_fintype_card]
  exact Fintype.two_lt_card_iff.2 ⟨0, 1, 2, h1.symm, h2.symm, h12⟩

/-- **Degenerate policies**: encryption refuses the tree or serves every key that satisfies it, if and
only if a leaf is not registered or recombination meets no gate with threshold zero for any attribute
set that satisfies the tree. In that case a key opens the ciphertexts of all choices of the scalars. -/
theorem serves_iff [Finite F] {p : ℕ} [CharP F p] (hp : 2 ^ 64 < p) (hA : A.Correct)
    (hbind : A.Binding) (hkdf : Function.Injective (kdf C A)) (hbeta : msk.beta ≠ 0)
    (hpp : Deployed C msk pp) (htree : tree.ChildrenLt (2 ^ 64)) (dek : ByteArr 32) :
    (Serves C A D pp msk tree dek ↔ (∃ a ∈ tree.leaves, a ∉ pp.attributes) ∨
      ∀ H, tree.isSatisfiedBy H = true → meetsZeroGate H tree = false) ∧
    ((∀ H, tree.isSatisfiedBy H = true → meetsZeroGate H tree = false) →
      ∀ subject attrs (keyRng keyRng' : Rng F) usk (rng rng' : Rng F) nonce ct,
        keygen pp msk subject attrs keyRng = .ok (usk, keyRng') →
          tree.isSatisfiedBy usk.attributeNames = true →
            encryptKey C A D pp dek tree rng nonce = .ok (ct, rng') →
              decryptKey C A D pp usk ct = .ok dek) := by
  have hF : IndicesDistinct F (2 ^ 64) := IndicesDistinct.of_charP hp.le
  have hopens : (∀ H, tree.isSatisfiedBy H = true → meetsZeroGate H tree = false) →
      ∀ subject attrs (keyRng keyRng' : Rng F) usk (rng rng' : Rng F) nonce ct,
        keygen pp msk subject attrs keyRng = .ok (usk, keyRng') →
          tree.isSatisfiedBy usk.attributeNames = true →
            encryptKey C A D pp dek tree rng nonce = .ok (ct, rng') →
              decryptKey C A D pp usk ct = .ok dek := by
    intro hmeets subject attrs keyRng keyRng' usk rng rng' nonce ct hkey hsat hct
    exact decryptKey_of_meetsZeroGate_eq_false hF hA hpp htree hkey hsat (hmeets _ hsat) hct
  refine ⟨⟨fun hserves => ?_, ?_⟩, hopens⟩
  · by_contra hcond
    push Not at hcond
    obtain ⟨hreg, H, hsat, hmeets⟩ := hcond
    rw [Ne, Bool.not_eq_false] at hmeets
    -- a key for the attributes of the set that occur in the tree
    have hleaves : ∀ a ∈ tree.leaves, a ∈ H.filter (fun a => decide (a ∈ tree.leaves)) ↔ a ∈ H :=
      fun a ha => by simp [ha]
    have hattrs : ∀ a ∈ H.filter (fun a => decide (a ∈ tree.leaves)), a ∈ pp.attributes :=
      fun a ha => hreg a (of_decide_eq_true (List.mem_filter.1 ha).2)
    obtain ⟨usk, keyRng', hkey, -, -⟩ := keygen_spec hbeta "" hattrs (fun _ => (1 : F))
    have hnames : ∀ a ∈ tree.leaves, a ∈ usk.attributeNames ↔ a ∈ H := fun a ha =>
      (mem_attributeNames hkey a).trans (hleaves a ha)
    have hsat' : tree.isSatisfiedBy usk.attributeNames = true := by
      rw [AccessTree.isSatisfiedBy_congr_leaves tree hnames, hsat]
    have hmeets' : meetsZeroGate usk.attributeNames tree = true := by
      rw [meetsZeroGate_congr_leaves hnames, hmeets]
    let nonce : ByteArr 12 := ⟨List.replicate 12 0, List.length_replicate⟩
    have hfailed := hserves _ _ _ _ _ nonce hkey one_ne_zero hsat'
    have hopened := card_opened_mul_le hF hA hbind hkdf hpp htree hkey one_ne_zero hsat' hmeets' D dek
      nonce
    have htotal := card_opened_add_card_failed hA hreg C D usk dek nonce
    have hcard := two_lt_card hF (by norm_num)
    have hpos : 0 < Nat.card F ^ (1 + coeffCount tree) := pow_pos (by omega) _
    nlinarith
  · rintro hcond subject attrs keyRng keyRng' usk nonce hkey - hsat
    -- no choice of the scalars fails
    have hempty : IsEmpty {c : Fin (1 + coeffCount tree) → F // ∃ ct rng',
        encryptKey C A D pp dek tree (tape c) nonce = .ok (ct, rng') ∧
        decryptKey C A D pp usk ct ≠ .ok dek} := by
      constructor
      rintro ⟨c, ct, rng', hct, hdec⟩
      rcases hcond with ⟨a, ha, hnot⟩ | hmeets
      · exact hnot (mem_of_encryptKey_eq_ok C D hct a ha)
      · exact hdec (hopens hmeets _ _ _ _ _ _ _ _ _ hkey hsat hct)
    rw [Nat.card_of_isEmpty, Nat.zero_mul]
    exact Nat.zero_le _

end Serves

/-! ## Examples -/

/-- Different blinding values of the exponents give different keys. -/
theorem injective_kdf_numberBoxes : Function.Injective (kdf exponents numberBoxes) := by
  have hread : ∀ x : Scalar, ofLeBytes (kdf exponents numberBoxes x).1 = x.val := by
    intro x
    have hdigits : Nat.ofDigitChars 10 (toString x.val).toList 0 = x.val := by
      rw [toList_toString, Nat.ofDigitChars_ten_toDigits]
    have hlt : x.val < 256 ^ 32 := x.val_lt.trans (by norm_num)
    simp only [kdf, gtCanonicalBytes, numberBoxes, exponents, exponentCurve, fromUtf8_utf8,
      Option.map_some, Option.getD_some, hdigits]
    exact ofLeBytes_leBytes hlt
  intro x y h
  rw [← x.natCast_val, ← y.natCast_val, ← hread x, ← hread y, h]

/-- A gate with threshold zero that recombination never comes to. -/
def shadowedTree : AccessTree :=
  .gate 1 [.leaf "a", .gate 2 [.leaf "a", AccessTree.threshold 0 [.leaf "b"]]]

/-- Every key that satisfies it opens its ciphertexts. -/
theorem serves_shadowedTree : Serves exponents numberBoxes serdeJson
    (registerAll exampleSetup.1.1 exampleCalls) exampleSetup.1.2 shadowedTree exampleDek := by
  refine (serves_iff (by norm_num : 2 ^ 64 < scalarModulus) correct_numberBoxes binding_numberBoxes
    injective_kdf_numberBoxes exampleSetup_beta
    ((deployed_setup exponents fun _ => 1).registerAll exampleCalls) (by decide) exampleDek).1.2
    (Or.inr fun H hsat => ?_)
  by_cases ha : "a" ∈ H
  · simp [shadowedTree, meetsZeroGate, meetsZeroGateAmong, ha]
  · have hzero : (AccessTree.threshold 0 [.leaf "b"]).isSatisfiedBy H = true := rfl
    simp [shadowedTree, AccessTree.isSatisfiedBy_gate, ha, hzero] at hsat

/-- A key that satisfies a gate with threshold zero does not open its ciphertext. -/
theorem decryptKey_threshold_zero : ∃ usk keyRng ct rng,
    keygen (registerAll exampleSetup.1.1 exampleCalls) exampleSetup.1.2 "alice" ["a"] (fun _ => 5) =
      .ok (usk, keyRng) ∧
    encryptKey exponents numberBoxes serdeJson (registerAll exampleSetup.1.1 exampleCalls) exampleDek
      (AccessTree.threshold 0 [.leaf "a"]) (fun _ => 7) ⟨List.replicate 12 0, rfl⟩ = .ok (ct, rng) ∧
    (AccessTree.threshold 0 [.leaf "a"]).isSatisfiedBy usk.attributeNames = true ∧
    decryptKey exponents numberBoxes serdeJson (registerAll exampleSetup.1.1 exampleCalls) usk ct =
      Outcome.err .policyNotSatisfied := by
  have hreg : ∀ a ∈ ["a"], a ∈ (registerAll exampleSetup.1.1 exampleCalls).attributes := by
    intro a ha
    rw [List.mem_singleton] at ha
    exact (mem_registerAll _ _ a).2 (Or.inl (by rw [ha, exampleCalls]; simp))
  obtain ⟨usk, keyRng, hkey, -, husk⟩ := keygen_spec exampleSetup_beta "alice" hreg
    (fun _ => (5 : Scalar))
  obtain ⟨ct, hct, henc⟩ := encryptKey_spec exponents serdeJson correct_numberBoxes exampleDek
    (show ∀ a ∈ (AccessTree.threshold 0 [.leaf "a"]).leaves, a ∈ _ from hreg) (fun _ => (7 : Scalar))
    ⟨List.replicate 12 0, rfl⟩
  refine ⟨usk, keyRng, ct, _, hkey, hct, rfl, ?_⟩
  have hrec : recovered (fun a => if a ∈ ["a"] then some (5 : Scalar) else none)
      (AccessTree.threshold 0 [.leaf "a"]) 7 (Rng.drop 1 fun _ => 7) = some 0 := by
    rw [AccessTree.threshold, recovered, combine_eq_some (Nat.zero_le _)]
    simp [chosen]
  have hne : (0 : Scalar) ≠ 5 * 7 := by
    have h35 : ((35 : ℕ) : Scalar) ≠ 0 := by
      rw [Ne, CharP.cast_eq_zero_iff Scalar scalarModulus]
      norm_num
    intro h
    apply h35
    rw [h]
    norm_num
  exact decryptKey_of_recovered_ne (IndicesDistinct.of_charP (le_refl scalarModulus)) binding_numberBoxes
    injective_kdf_numberBoxes exampleSetup_beta
    ((deployed_setup exponents fun _ => 1).registerAll exampleCalls) husk
    (show AccessTree.ChildrenLt scalarModulus _ by decide) henc hrec hne

end SecureABE.Core
