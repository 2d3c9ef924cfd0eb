import Mathlib.LinearAlgebra.Lagrange

/-!
# Interpolation at zero

The value at zero of a polynomial from its values at a list of nodes, as threshold secret sharing
uses it. `zeroWeight` is the Lagrange coefficient at zero; it recovers the value of every polynomial
of smaller degree than there are nodes (`sum_zeroWeight`) and never vanishes (`zeroWeight_ne_zero`).
Two polynomials are provided for arguments about sharing: one with a prescribed value at zero that
vanishes at the nodes (`exists_maskPolynomial`), and one that vanishes at all nodes but one
(`exists_spikePolynomial`). `sharePoly` is the polynomial of a secret and its random coefficients;
every polynomial is of this form (`eval_eq_add_sum`).
-/

namespace Interpolation

open Polynomial

variable {F ι : Type*} [Field F]

section Weights

variable [DecidableEq ι]

/-- The Lagrange coefficient at zero of node `i` among the nodes of `s`. -/
def zeroWeight (x : ι → F) (s : Finset ι) (i : ι) : F :=
  (∏ j ∈ s.erase i, -x j) * (∏ j ∈ s.erase i, (x i - x j))⁻¹

variable {x : ι → F} {s : Finset ι}

theorem prod_sub_ne_zero (hx : Set.InjOn x s) {i : ι} (hi : i ∈ s) :
    ∏ j ∈ s.erase i, (x i - x j) ≠ 0 := by
  refine Finset.prod_ne_zero_iff.2 fun j hj => sub_ne_zero.2 fun h => ?_
  obtain ⟨hne, hj⟩ := Finset.mem_erase.1 hj
  exact hne (hx hj hi h.symm)

theorem zeroWeight_ne_zero (hx : Set.InjOn x s) (h0 : ∀ i ∈ s, x i ≠ 0) {i : ι} (hi : i ∈ s) :
    zeroWeight x s i ≠ 0 := by
  refine mul_ne_zero (Finset.prod_ne_zero_iff.2 fun j hj => ?_)
    (inv_ne_zero (prod_sub_ne_zero hx hi))
  exact neg_ne_zero.2 (h0 j (Finset.mem_of_mem_erase hj))

theorem eval_zero_basis (i : ι) : (Lagrange.basis s x i).eval 0 = zeroWeight x s i := by
  rw [Lagrange.basis, eval_prod, zeroWeight, ← Finset.prod_inv_distrib, ← Finset.prod_mul_distrib]
  apply Finset.prod_congr rfl
  intro j _
  rw [Lagrange.basisDivisor, eval_mul, eval_C, eval_sub, eval_X, eval_C, zero_sub, mul_comm]

/-- **Recombination at zero**: a polynomial of degree smaller than the number of nodes. -/
theorem sum_zeroWeight (hx : Set.InjOn x s) {p : F[X]} (hp : p.degree < s.card) :
    ∑ i ∈ s, zeroWeight x s i * p.eval (x i) = p.eval 0 := by
  conv_rhs => rw [Lagrange.eq_interpolate hx hp]
  rw [Lagrange.interpolate_apply, eval_finsetSum]
  apply Finset.sum_congr rfl
  intro i _
  rw [eval_mul, eval_C, eval_zero_basis, mul_comm]

/-- A polynomial with the value `c` at node `i` that vanishes at the other nodes. -/
theorem exists_spikePolynomial (hx : Set.InjOn x s) {i : ι} (hi : i ∈ s) (c : F) :
    ∃ p : F[X], p.natDegree < s.card ∧ p.eval (x i) = c ∧
      ∀ j ∈ s, j ≠ i → p.eval (x j) = 0 := by
  refine ⟨C c * Lagrange.basis s x i, ?_, ?_, fun j hj hne => ?_⟩
  · have hpos : 0 < s.card := Finset.card_pos.2 ⟨i, hi⟩
    have hdeg := Lagrange.natDegree_basis hx hi
    have := natDegree_C_mul_le c (Lagrange.basis s x i)
    omega
  · rw [eval_mul, eval_C, Lagrange.eval_basis_self hx hi, mul_one]
  · rw [eval_mul, Lagrange.eval_basis_of_ne hne.symm hj, mul_zero]

end Weights

/-- A polynomial with the value `c` at zero that vanishes at the nodes. -/
theorem exists_maskPolynomial {x : ι → F} {s : Finset ι} (h0 : ∀ i ∈ s, x i ≠ 0) (c : F) :
    ∃ p : F[X], p.natDegree ≤ s.card ∧ p.eval 0 = c ∧ ∀ i ∈ s, p.eval (x i) = 0 := by
  refine ⟨C c * ∏ i ∈ s, (1 - C (x i)⁻¹ * X), ?_, ?_, fun i hi => ?_⟩
  · refine (natDegree_C_mul_le _ _).trans ((natDegree_prod_le _ _).trans ?_)
    have hfactor : ∀ i ∈ s, (1 - C (x i)⁻¹ * X : F[X]).natDegree ≤ 1 := fun i _ =>
      (natDegree_sub_le _ _).trans
        (max_le (by simp) ((natDegree_C_mul_le _ _).trans natDegree_X_le))
    exact (Finset.sum_le_sum hfactor).trans (by simp)
  · simp [eval_prod]
  · rw [eval_mul, eval_prod, Finset.prod_eq_zero hi, mul_zero]
    simp [inv_mul_cancel₀ (h0 i hi)]

/-- The polynomial with constant `s` and the `d` higher coefficients `c 0, c 1, …`. -/
noncomputable def sharePoly (d : ℕ) (s : F) (c : ℕ → F) : F[X] :=
  C s + ∑ n ∈ Finset.range d, C (c n) * X ^ (n + 1)

theorem natDegree_sharePoly_le (d : ℕ) (s : F) (c : ℕ → F) : (sharePoly d s c).natDegree ≤ d := by
  have hsum : (∑ n ∈ Finset.range d, C (c n) * X ^ (n + 1) : F[X]).natDegree ≤ d :=
    natDegree_sum_le_of_forall_le _ _ fun n hn =>
      (natDegree_C_mul_X_pow_le _ _).trans (Finset.mem_range.1 hn)
  refine (natDegree_add_le _ _).trans (max_le ?_ hsum)
  rw [natDegree_C]
  exact Nat.zero_le d

theorem eval_sharePoly (d : ℕ) (s : F) (c : ℕ → F) (a : F) :
    (sharePoly d s c).eval a = s + ∑ n ∈ Finset.range d, c n * a ^ (n + 1) := by
  simp [sharePoly, eval_finsetSum]

theorem eval_zero_sharePoly (d : ℕ) (s : F) (c : ℕ → F) : (sharePoly d s c).eval 0 = s := by
  simp [eval_sharePoly]

/-- A polynomial of degree at most `d` is its constant plus `d` higher terms. -/
theorem eval_eq_add_sum {p : F[X]} {d : ℕ} (hp : p.natDegree ≤ d) (a : F) :
    p.eval a = p.eval 0 + ∑ n ∈ Finset.range d, p.coeff (n + 1) * a ^ (n + 1) := by
  rw [eval_eq_sum_range' (Nat.lt_succ_of_le hp), Finset.sum_range_succ', ← coeff_zero_eq_eval_zero]
  simp [add_comm]

/-- Coefficients that, with the constant `c`, give a polynomial vanishing at the nodes. -/
theorem exists_maskCoeffs {x : ι → F} {s : Finset ι} (h0 : ∀ i ∈ s, x i ≠ 0) {d : ℕ}
    (hd : s.card ≤ d) (c : F) :
    ∃ m : ℕ → F, ∀ i ∈ s, c + ∑ n ∈ Finset.range d, m n * x i ^ (n + 1) = 0 := by
  obtain ⟨p, hdeg, h0, hzero⟩ := exists_maskPolynomial h0 c
  refine ⟨fun n => p.coeff (n + 1), fun i hi => ?_⟩
  rw [← h0, ← eval_eq_add_sum (hdeg.trans hd), hzero i hi]

/-- A constant and coefficients of a polynomial that vanishes at the nodes but at `i`, where it is
`a`. -/
theorem exists_spikeCoeffs [DecidableEq ι] {x : ι → F} {s : Finset ι} (hx : Set.InjOn x s) {i : ι}
    (hi : i ∈ s) {d : ℕ} (hd : s.card ≤ d + 1) (a : F) :
    ∃ (c : F) (m : ℕ → F), c + ∑ n ∈ Finset.range d, m n * x i ^ (n + 1) = a ∧
      ∀ j ∈ s, j ≠ i → c + ∑ n ∈ Finset.range d, m n * x j ^ (n + 1) = 0 := by
  obtain ⟨p, hdeg, hone, hzero⟩ := exists_spikePolynomial hx hi a
  have hdeg' : p.natDegree ≤ d := by omega
  refine ⟨p.eval 0, fun n => p.coeff (n + 1), ?_, fun j hj hne => ?_⟩
  · rw [← eval_eq_add_sum hdeg', hone]
  · rw [← eval_eq_add_sum hdeg', hzero j hj hne]

/-- The constant of a polynomial that vanishes at the nodes but at `i`, where it is `a`. -/
theorem constant_eq_of_spike [DecidableEq ι] {x : ι → F} {s : Finset ι} (hx : Set.InjOn x s) {i : ι}
    (hi : i ∈ s) {d : ℕ} (hd : d < s.card) {a c : F} {m : ℕ → F}
    (hspike : c + ∑ n ∈ Finset.range d, m n * x i ^ (n + 1) = a)
    (hrest : ∀ j ∈ s, j ≠ i → c + ∑ n ∈ Finset.range d, m n * x j ^ (n + 1) = 0) :
    c = zeroWeight x s i * a := by
  have hdeg : (sharePoly d c m).degree < s.card := by
    apply lt_of_le_of_lt degree_le_natDegree
    have := natDegree_sharePoly_le d c m
    exact_mod_cast (by omega : (sharePoly d c m).natDegree < s.card)
  have hsum := sum_zeroWeight hx hdeg
  simp only [eval_sharePoly] at hsum
  rw [Finset.sum_eq_single_of_mem i hi fun j hj hne => by rw [hrest j hj hne, mul_zero], hspike] at hsum
  simpa using hsum.symm

end Interpolation
