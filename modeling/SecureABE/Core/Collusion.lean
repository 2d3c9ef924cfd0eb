import SecureABE.Core.Ideal
import SecureABE.Core.Operations
import SecureABE.Core.Directions

/-!
# Collusion

A key put together from the keys of several users (`Spliced`) recovers the blinding value of a
ciphertext for at most one in `|F|` choices of the random scalars of the encryption, unless the
attributes that carry the exponent of its `d` satisfy the tree by themselves (`card_opens_mul_le`).

The recovered value is right exactly when the recombination of the shares, each multiplied by the
difference of the exponent of its attribute and the one of `d`, is zero (`recovered_sub`). There is a
direction in which this recombination moves with a nonzero slope (`exists_direction`): it changes the
share of one leaf with a foreign exponent and keeps every other chosen share, gate by gate.
-/

namespace SecureABE.Core

open Rust SecureABE.Policy Threshold Interpolation

variable {F : Type} [Field F]

/-! ## Differences of exponents -/

/-- Subtracting `r` from all exponents subtracts `r * s` from the recombined scalar. -/
theorem recovered_sub {n : ℕ} (hF : IndicesDistinct F n) {rho : String → Option F} {t : AccessTree}
    (hpos : t.Positive) (ht : t.ChildrenLt n) (r s : F) (rng : Rng F) :
    recovered (fun a => (rho a).map (· - r)) t s rng = (recovered rho t s rng).map (· - r * s) := by
  induction t using AccessTree.induct generalizing s rng with
  | leaf a =>
    unfold recovered
    rw [Option.map_map, Option.map_map]
    refine congrArg (fun f => Option.map f (rho a)) (funext fun x => ?_)
    exact sub_mul x r s
  | gate k cs ih =>
    obtain ⟨hk, hposc⟩ := AccessTree.positive_gate.1 hpos
    obtain ⟨hlen, hcs⟩ := AccessTree.childrenLt_gate.1 ht
    have hdeg : (sharePoly (k - 1) s rng).natDegree < k := by
      have := natDegree_sharePoly_le (k - 1) s rng
      omega
    have hinj := hF.injOn_node hlen
    rw [← length_recoveredOf rho cs (gateShare k s rng) 0 (rng.drop (k - 1))] at hinj
    rw [recovered, recovered, combine_sub (by rw [length_recoveredOf, length_recoveredOf]) hinj hdeg r,
      eval_zero_sharePoly, smul_eq_mul, mul_comm s r]
    intro j hj
    rw [length_recoveredOf] at hj
    have hc : cs[j]? = some cs[j] := List.getElem?_eq_getElem hj
    have hmem : cs[j] ∈ cs := List.getElem_mem hj
    rw [valueAt_recoveredOf_gate hc, valueAt_recoveredOf_gate hc,
      ih _ hmem (hposc _ hmem) (hcs _ hmem), node, indexScalar, eval_sharePoly_index, smul_eq_mul,
      mul_comm r]

/-! ## The direction -/

/-- **The direction**: where the held attributes satisfy a tree and those with exponent zero do not,
the recombined scalar moves with a nonzero slope along some change of secret and coefficients. -/
theorem exists_direction {n : ℕ} (hF : IndicesDistinct F n) {rho : String → Option F}
    {H Z : List String} (hH : ∀ a, (rho a).isSome = decide (a ∈ H)) (hZ : ∀ a, rho a = some 0 → a ∈ Z)
    {t : AccessTree} (hpos : t.Positive) (ht : t.ChildrenLt n) (hheld : t.isSatisfiedBy H = true)
    (hzero : t.isSatisfiedBy Z = false) :
    ∃ (ds : F) (mask : Rng F) (g : F), g ≠ 0 ∧ Direction rho t ds mask g := by
  induction t using AccessTree.induct with
  | leaf a =>
    have ha : (rho a).isSome := by rwa [hH, ← AccessTree.isSatisfiedBy_leaf]
    obtain ⟨d, hd⟩ := Option.isSome_iff_exists.1 ha
    have hne : d ≠ 0 := by
      rintro rfl
      rw [AccessTree.isSatisfiedBy_leaf, decide_eq_false_iff_not] at hzero
      exact hzero (hZ a hd)
    refine ⟨1, 0, d, hne, fun s rng x => ?_⟩
    unfold recovered
    rw [hd, Option.map_some, Option.map_some, Option.map_some]
    congr 1
    ring
  | gate k cs ih =>
    obtain ⟨hk, hposc⟩ := AccessTree.positive_gate.1 hpos
    obtain ⟨hlen, hcs⟩ := AccessTree.childrenLt_gate.1 ht
    rw [AccessTree.isSatisfiedBy_gate, decide_eq_true_eq] at hheld
    rw [AccessTree.isSatisfiedBy_gate, decide_eq_false_iff_not, not_le, ← card_satisfiedAt] at hzero
    have hcard : (chosen k (pattern H cs)).card = k :=
      card_chosen (by rw [length_heldIndices, countP_pattern]; omega)
    -- a chosen child that the attributes with exponent zero do not satisfy
    obtain ⟨i, hi, hnot⟩ : ∃ i ∈ chosen k (pattern H cs), i ∉ satisfiedAt Z cs := by
      by_contra hall
      push Not at hall
      have := Finset.card_le_card (show chosen k (pattern H cs) ⊆ satisfiedAt Z cs from hall)
      omega
    obtain ⟨c, hmem, hc, hsat⟩ := exists_chosen hi
    have hunsat : c.isSatisfiedBy Z = false := by
      by_contra h
      exact hnot (mem_satisfiedAt.2 ⟨c, hc, by simpa using h⟩)
    obtain ⟨dsᵢ, maskᵢ, g, hg, hdir⟩ := ih _ hmem (hposc _ hmem) (hcs _ hmem) hsat hunsat
    obtain ⟨w, mask, hw, hgate⟩ := exists_gateDirection hF hH hlen hheld hc hi hdir
    exact ⟨w * dsᵢ, mask, w * g, mul_ne_zero hw hg, hgate⟩

/-! ## Spliced keys -/

variable {G₁ G₂ Gₜ : Type} [AddCommGroup G₁] [Module F G₁] [AddCommGroup G₂] [Module F G₂]
  [AddCommGroup Gₜ] [Module F Gₜ] [DecidableEq F]

/-- A key that `keygen` returned at some point of the deployment with the registrations `calls`, its
exponent being the first scalar drawn. -/
def KeygenOutput (C : Curve F G₁ G₂ Gₜ) (setupRng : Rng F) (calls : List (String × Rng F)) (r : F)
    (usk : UserSecretKey G₂) : Prop :=
  ∃ registered later subject attrs rng rng', calls = registered ++ later ∧ rng 0 = r ∧
    keygen (registerAll (setup C setupRng).1.1 registered) (setup C setupRng).1.2 subject attrs rng =
      .ok (usk, rng')

/-- A key with the `d` of one minted key, of exponent `r`, and each component of some minted key, of
the exponent `rho` of its attribute. -/
structure Spliced (C : Curve F G₁ G₂ Gₜ) (setupRng : Rng F) (calls : List (String × Rng F)) (r : F)
    (rho : String → Option F) (usk : UserSecretKey G₂) : Prop where
  d : ∃ key, KeygenOutput C setupRng calls r key ∧ usk.d = key.d
  component : ∀ a, Option.Rel (fun r share => ∃ key, KeygenOutput C setupRng calls r key ∧
    key.attributes.lookup a = some share) (rho a) (usk.attributes.lookup a)

variable {C : Curve F G₁ G₂ Gₜ} {A : Cipher} {D : Codec}

/-- A minted key, seen from the end of the deployment. -/
theorem KeygenOutput.minted {setupRng : Rng F} (hbeta : (setup C setupRng).1.2.beta ≠ 0)
    {calls : List (String × Rng F)} {r : F} {usk : UserSecretKey G₂}
    (h : KeygenOutput C setupRng calls r usk) :
    ∃ pp attrs, Deployed C (setup C setupRng).1.2 pp ∧
      Extends pp (registerAll (setup C setupRng).1.1 calls) ∧
      Minted pp (setup C setupRng).1.2 attrs r usk := by
  obtain ⟨registered, later, subject, attrs, rng, rng', rfl, rfl, hkey⟩ := h
  obtain ⟨usk', rng₁, hrun, -, hminted⟩ :=
    keygen_spec hbeta subject (mem_of_keygen_eq_ok hkey) rng
  obtain ⟨rfl, -⟩ := Prod.mk.inj (Except.ok.inj (hkey.symm.trans hrun))
  refine ⟨_, attrs, (deployed_setup C setupRng).registerAll registered, ?_, hminted⟩
  rw [registerAll, registerAll, List.foldl_append]
  exact extends_registerAll _ later

/-- The components of a spliced key have the exponents it was spliced with. -/
theorem Spliced.exponents {setupRng : Rng F} (hbeta : (setup C setupRng).1.2.beta ≠ 0)
    {calls : List (String × Rng F)} {r : F} {rho : String → Option F} {usk : UserSecretKey G₂}
    (h : Spliced C setupRng calls r rho usk) :
    Exponents (registerAll (setup C setupRng).1.1 calls) usk rho := by
  intro a
  refine rel_imp (fun x share hkey => ?_) (h.component a)
  obtain ⟨key, hout, hshare⟩ := hkey
  obtain ⟨pp, attrs, -, hext, hminted⟩ := hout.minted hbeta
  exact (hminted.component a share hshare).mono hext

/-- A key with exponents `rho` recovers the blinding value if and only if the recombination of the
differences to the exponent of its `d` is zero. -/
theorem recoverBlinding_eq_ok {n : ℕ} (hF : IndicesDistinct F n) {msk : MasterSecret F}
    (hbeta : msk.beta ≠ 0) {pp pp' : PublicParams G₁ G₂ Gₜ} (hpp : Deployed C msk pp)
    (hpp' : Deployed C msk pp') {r : F} {usk : UserSecretKey G₂}
    (hd : usk.d = ((msk.alpha + r) * msk.beta⁻¹) • pp.g2) {rho : String → Option F}
    (hrho : Exponents pp' usk rho) {dek : ByteArr 32} {tree : AccessTree} (hpos : tree.Positive)
    (htree : tree.ChildrenLt n) {s : F} {rng : Rng F} {ct : AbeCiphertext G₁}
    (hct : Encrypted C A D pp' dek tree s rng ct) :
    recoverBlinding C usk ct = .ok (s • pp'.eggAlpha) ↔
      recovered (fun a => (rho a).map (· - r)) tree s rng = some 0 := by
  rw [recoverBlinding_eq hF hpp' htree hct hrho, recovered_sub hF hpos htree]
  cases recovered rho tree s rng with
  | none => simp [Outcome.err]
  | some v =>
    simp only [Option.map_some]
    rw [hct.c_eq, hd, pairing_c_d hbeta hpp hpp']
    have hne := C.pairing_ne_zero
    constructor
    · intro h
      have heq : (s * r - v) • C.pairing C.g1 C.g2 = 0 := by
        have := Except.ok.inj h
        rw [add_sub_assoc, add_eq_left, ← sub_smul] at this
        exact this
      rw [smul_eq_zero, or_iff_left hne, sub_eq_zero] at heq
      rw [← heq, mul_comm, sub_self]
    · intro h
      have heq : v = s * r := by
        rw [mul_comm]
        exact sub_eq_zero.1 (Option.some.inj h)
      rw [heq, add_sub_cancel_right]

/-- **Collusion resistance.** The scalars of `c` are `s` and the coefficients, all that `encryptKey`
draws (`encryptKey_spec`); a field of `p` elements has characteristic `p`. -/
theorem card_opens_mul_le [Finite F] {p : ℕ} [CharP F p] {setupRng : Rng F}
    (hbeta : (setup C setupRng).1.2.beta ≠ 0) {calls : List (String × Rng F)} {r : F}
    {rho : String → Option F} {usk : UserSecretKey G₂} (husk : Spliced C setupRng calls r rho usk)
    {tree : AccessTree} (hpos : tree.Positive) (htree : tree.ChildrenLt p)
    (hown : tree.isSatisfiedBy (usk.attributeNames.filter fun a => decide (rho a = some r)) = false)
    (dek : ByteArr 32) (nonce : ByteArr 12) :
    Nat.card {c : Fin (1 + coeffCount tree) → F // ∃ ct rng',
        encryptKey C A D (registerAll (setup C setupRng).1.1 calls) dek tree (tape c) nonce =
          .ok (ct, rng') ∧
        recoverBlinding C usk ct =
          .ok (tape c 0 • (registerAll (setup C setupRng).1.1 calls).eggAlpha)} * Nat.card F ≤
      Nat.card F ^ (1 + coeffCount tree) := by
  have hF : IndicesDistinct F p := IndicesDistinct.of_charP le_rfl
  have hpp := (deployed_setup C setupRng).registerAll calls
  have hrho := husk.exponents hbeta
  obtain ⟨key, hout, hd⟩ := husk.d
  obtain ⟨pp₁, attrs, hpp₁, -, hminted⟩ := hout.minted hbeta
  rw [hminted.d] at hd
  -- the differences of the exponents, as a function of the random scalars
  let delta : String → Option F := fun a => (rho a).map (· - r)
  let value : (Fin (1 + coeffCount tree) → F) → Option F := fun c =>
    recovered delta tree (tape c 0) ((tape c).drop 1)
  have hsub : Nat.card {c : Fin (1 + coeffCount tree) → F // ∃ ct rng',
      encryptKey C A D (registerAll (setup C setupRng).1.1 calls) dek tree (tape c) nonce =
        .ok (ct, rng') ∧
      recoverBlinding C usk ct =
        .ok (tape c 0 • (registerAll (setup C setupRng).1.1 calls).eggAlpha)} ≤
      Nat.card {c // value c = some 0} := by
    refine Nat.card_le_card_of_injective (Subtype.map id ?_) (Subtype.map_injective _ fun _ _ h => h)
    rintro c ⟨ct, rng', henc, hopen⟩
    exact (recoverBlinding_eq_ok hF hbeta hpp₁ hpp hd hrho hpos htree
      (encrypted_of_eq_ok henc)).1 hopen
  apply (Nat.mul_le_mul_right _ hsub).trans
  have hH : ∀ a, (delta a).isSome = decide (a ∈ usk.attributeNames) := fun a => by
    rw [Option.isSome_map, hrho.isSome]
  by_cases hheld : tree.isSatisfiedBy usk.attributeNames = true
  · have hZ : ∀ a, delta a = some 0 →
        a ∈ usk.attributeNames.filter fun a => decide (rho a = some r) := by
      intro a ha
      have hsome : (delta a).isSome := by rw [ha]; rfl
      obtain ⟨x, hx, hxr⟩ := Option.map_eq_some_iff.1 ha
      rw [hH, decide_eq_true_eq] at hsome
      rw [List.mem_filter, decide_eq_true_eq, hx, sub_eq_zero.1 hxr]
      exact ⟨hsome, rfl⟩
    obtain ⟨ds, mask, g, hg, hdir⟩ := exists_direction hF hH hZ hpos htree hheld hown
    obtain ⟨d, hd⟩ := hdir.exists_tape
    have hmove : ∀ c (x : F), value (c + x • d) = (value c).map (· + x * g) := fun c x => (hd c x).2
    apply (Translation.card_zeros_mul_card_le hg hmove).trans_eq
    rw [Nat.card_fun, Nat.card_eq_fintype_card (α := Fin _), Fintype.card_fin]
  · -- the key does not satisfy the tree at all, and nothing is recovered
    have hempty : IsEmpty {c // value c = some 0} := by
      constructor
      rintro ⟨c, hc⟩
      apply hheld
      rw [← isSome_recovered hH tree (tape c 0) ((tape c).drop 1)]
      exact congrArg Option.isSome hc
    rw [Nat.card_of_isEmpty, Nat.zero_mul]
    exact Nat.zero_le _

/-- The registrations of two attributes. -/
def twoCalls : List (String × Rng Scalar) := [("a", fun _ => (2 : ℕ)), ("b", fun _ => (3 : ℕ))]

/-- A policy that needs both. -/
def bothTree : AccessTree := .gate 2 [.leaf "a", .leaf "b"]

/-- The exponents of a key with `"a"` from one user and `"b"` from another. -/
def twoUsers (a : String) : Option Scalar :=
  if a = "b" then some 1 else if a = "a" then some 0 else none

theorem exists_spliced_twoUsers :
    ∃ usk, Spliced exponents (fun _ => 1) twoCalls 0 twoUsers usk := by
  have hreg : ∀ a ∈ ["a", "b"],
      a ∈ (registerAll (setup exponents fun _ => 1).1.1 twoCalls).attributes :=
    fun a ha => (mem_registerAll _ twoCalls a).2 (Or.inl ha)
  have hbeta : (setup exponents fun _ => 1).1.2.beta ≠ 0 := (one_ne_zero : (1 : Scalar) ≠ 0)
  obtain ⟨alice, rng, halice, -, hmalice⟩ := keygen_spec hbeta "alice" hreg (fun _ => (0 : Scalar))
  obtain ⟨bob, rng', hbob, -, hmbob⟩ := keygen_spec hbeta "bob" hreg (fun _ => (1 : Scalar))
  have houta : KeygenOutput exponents (fun _ => 1) twoCalls 0 alice :=
    ⟨_, [], "alice", ["a", "b"], _, rng, (List.append_nil _).symm, rfl, halice⟩
  have houtb : KeygenOutput exponents (fun _ => 1) twoCalls 1 bob :=
    ⟨_, [], "bob", ["a", "b"], _, rng', (List.append_nil _).symm, rfl, hbob⟩
  obtain ⟨share, hshare⟩ := HashMap.exists_lookup_of_mem ((hmbob.mem "b").2 (by simp))
  refine ⟨⟨"eve", alice.d, alice.attributes.insert "b" share⟩, ⟨alice, houta, rfl⟩, fun a => ?_⟩
  dsimp only
  by_cases hb : a = "b"
  · subst hb
    rw [AList.lookup_insert, twoUsers, if_pos rfl]
    exact Option.Rel.some ⟨bob, houtb, hshare⟩
  · rw [AList.lookup_insert_ne hb, twoUsers, if_neg hb]
    by_cases ha : a = "a"
    · subst ha
      obtain ⟨share', hshare'⟩ := HashMap.exists_lookup_of_mem ((hmalice.mem "a").2 (by simp))
      rw [hshare', if_pos rfl]
      exact Option.Rel.some ⟨alice, houta, hshare'⟩
    · have hnone : alice.attributes.lookup a = none := AList.lookup_eq_none.2 fun hmem => by
        simpa [ha, hb] using (hmalice.mem a).1 hmem
      rw [hnone, if_neg ha]
      exact Option.Rel.none

/-- Two users who hold one attribute each, against a policy that needs both. -/
theorem card_opens_mul_le_two_users : ∃ usk,
    Spliced exponents (fun _ => 1) twoCalls 0 twoUsers usk ∧
    Nat.card {c : Fin (1 + coeffCount bothTree) → Scalar // ∃ ct rng',
        encryptKey exponents boxes serdeJson
          (registerAll (setup exponents fun _ => 1).1.1 twoCalls)
          ⟨List.replicate 32 0, rfl⟩ bothTree (tape c)
          ⟨List.replicate 12 0, rfl⟩ = .ok (ct, rng') ∧
        recoverBlinding exponents usk ct = .ok (tape c 0 • (registerAll (setup exponents fun _ => 1).1.1
          twoCalls).eggAlpha)} * Nat.card Scalar ≤
      Nat.card Scalar ^ (1 + coeffCount bothTree) := by
  obtain ⟨usk, husk⟩ := exists_spliced_twoUsers
  have hbeta : (setup exponents fun _ => 1).1.2.beta ≠ 0 := (one_ne_zero : (1 : Scalar) ≠ 0)
  refine ⟨usk, husk, card_opens_mul_le hbeta husk (by decide)
    (show AccessTree.ChildrenLt scalarModulus _ by decide) ?_ _ _⟩
  simp [bothTree, AccessTree.isSatisfiedBy_gate, twoUsers, List.countP_cons]
  split_ifs <;> simp

end SecureABE.Core
