import SecureABE.Foundations.Interpolation
import Mathlib.Data.List.GetD

/-!
# Threshold recombination

A gate of threshold `k` over a list of children, each of which may hold a value or not: the first
`k` held values are recombined at zero (`combine`). The results say

* when there is a value at all (`isSome_combine`): which positions are held decides, not the values;
* what the value is when the children hold the values of one polynomial of degree below `k`
  (`combine_eval`);
* that recombination commutes with linear maps (`combine_map`) and with adding a value that the
  children share (`combine_sub`), and how it moves with the value of a single chosen child
  (`combine_spike`).
-/

namespace Threshold

open Interpolation Polynomial

variable {F M N : Type*} [Field F] [AddCommGroup M] [Module F M] [AddCommGroup N] [Module F N]

/-- The value at a position, if it is held. -/
def valueAt (vals : List (Option M)) (j : ℕ) : Option M := vals.getD j none

omit [AddCommGroup M] in
@[simp] theorem valueAt_cons_zero (v : Option M) (vals : List (Option M)) :
    valueAt (v :: vals) 0 = v := rfl

omit [AddCommGroup M] in
@[simp] theorem valueAt_cons_succ (v : Option M) (vals : List (Option M)) (j : ℕ) :
    valueAt (v :: vals) (j + 1) = valueAt vals j := rfl

/-- The held positions, in increasing order. -/
def heldIndices (vals : List (Option M)) : List ℕ :=
  (List.range vals.length).filter fun j => (valueAt vals j).isSome

/-- The first `k` held positions. -/
def chosen (k : ℕ) (vals : List (Option M)) : Finset ℕ := ((heldIndices vals).take k).toFinset

/-- The value at zero from the first `k` held values, the position `j` standing for the node
`x j`. -/
def combine (x : ℕ → F) (k : ℕ) (vals : List (Option M)) : Option M :=
  if (heldIndices vals).length < k then none
  else some (∑ j ∈ chosen k vals, zeroWeight x (chosen k vals) j • (valueAt vals j).getD 0)

/-! ## The chosen positions -/

section Chosen

omit [AddCommGroup M] [AddCommGroup N]

theorem heldIndices_cons (v : Option M) (vals : List (Option M)) :
    heldIndices (v :: vals) =
      (if v.isSome then [0] else []) ++ (heldIndices vals).map (· + 1) := by
  rw [heldIndices, List.length_cons, List.range_succ_eq_map, List.filter_cons, List.filter_map]
  cases v <;> rfl

theorem nodup_heldIndices (vals : List (Option M)) : (heldIndices vals).Nodup :=
  List.nodup_range.filter _

theorem length_heldIndices (vals : List (Option M)) :
    (heldIndices vals).length = vals.countP Option.isSome := by
  induction vals with
  | nil => rfl
  | cons v vals ih =>
    rw [heldIndices_cons, List.length_append, List.length_map, ih, List.countP_cons]
    cases v <;> simp [Nat.add_comm]

theorem mem_heldIndices {vals : List (Option M)} {j : ℕ} (h : j ∈ heldIndices vals) :
    j < vals.length ∧ ∃ v, valueAt vals j = some v := by
  simpa [heldIndices, Option.isSome_iff_exists] using h

theorem mem_chosen {k : ℕ} {vals : List (Option M)} {j : ℕ} (h : j ∈ chosen k vals) :
    j < vals.length ∧ ∃ v, valueAt vals j = some v :=
  mem_heldIndices (List.mem_of_mem_take (List.mem_toFinset.1 h))

theorem card_chosen {k : ℕ} {vals : List (Option M)} (h : ¬ (heldIndices vals).length < k) :
    (chosen k vals).card = k := by
  rw [chosen, List.toFinset_card_of_nodup ((nodup_heldIndices vals).sublist (List.take_sublist k _)),
    List.length_take]
  omega

/-- The positions chosen from a list that starts with a held value. -/
theorem mem_chosen_some_cons {k : ℕ} {v : M} {vals : List (Option M)} {j : ℕ} :
    j ∈ chosen (k + 1) (some v :: vals) ↔ j = 0 ∨ ∃ i ∈ chosen k vals, i + 1 = j := by
  simp [chosen, heldIndices_cons, ← List.map_take]

/-- The positions chosen from a list that starts with a missing value. -/
theorem mem_chosen_none_cons {k : ℕ} {vals : List (Option M)} {j : ℕ} :
    j ∈ chosen k (none :: vals) ↔ ∃ i ∈ chosen k vals, i + 1 = j := by
  simp [chosen, heldIndices_cons, ← List.map_take]

/-- The held positions depend on the pattern of the held values only. -/
theorem heldIndices_congr {vals : List (Option M)} {vals' : List (Option N)}
    (hl : vals.length = vals'.length)
    (h : ∀ j, (valueAt vals j).isSome = (valueAt vals' j).isSome) :
    heldIndices vals = heldIndices vals' := by
  unfold heldIndices
  rw [hl]
  exact List.filter_congr fun j _ => h j

theorem chosen_congr {vals : List (Option M)} {vals' : List (Option N)} (k : ℕ)
    (hl : vals.length = vals'.length)
    (h : ∀ j, (valueAt vals j).isSome = (valueAt vals' j).isSome) :
    chosen k vals = chosen k vals' := by
  unfold chosen
  rw [heldIndices_congr hl h]

end Chosen

theorem isSome_combine (x : ℕ → F) (k : ℕ) (vals : List (Option M)) :
    (combine x k vals).isSome = decide (k ≤ vals.countP Option.isSome) := by
  rw [combine, length_heldIndices]
  split_ifs with h
  · simpa using h
  · simpa using h

theorem combine_eq_none {x : ℕ → F} {k : ℕ} {vals : List (Option M)}
    (h : vals.countP Option.isSome < k) : combine x k vals = none :=
  if_pos (by rwa [length_heldIndices])

theorem combine_eq_some {x : ℕ → F} {k : ℕ} {vals : List (Option M)}
    (h : k ≤ vals.countP Option.isSome) :
    combine x k vals =
      some (∑ j ∈ chosen k vals, zeroWeight x (chosen k vals) j • (valueAt vals j).getD 0) :=
  if_neg (by rw [length_heldIndices]; omega)

/-! ## Values -/

section Values

variable {x : ℕ → F} {k : ℕ} {vals : List (Option M)}

/-- **Recombination of shares**: the chosen values are those of one polynomial of degree below
`k`. -/
theorem combine_eval_of_chosen (hx : Set.InjOn x (Set.Iio vals.length)) {p : F[X]}
    (hp : p.natDegree < k) (e : M) (h : k ≤ vals.countP Option.isSome)
    (hv : ∀ j ∈ chosen k vals, valueAt vals j = some (p.eval (x j) • e)) :
    combine x k vals = some (p.eval 0 • e) := by
  have hcard : (chosen k vals).card = k := card_chosen (by rw [length_heldIndices]; omega)
  have hinj : Set.InjOn x (chosen k vals) :=
    hx.mono fun j hj => Set.mem_Iio.2 (mem_chosen (Finset.mem_coe.1 hj)).1
  have hdeg : p.degree < (chosen k vals).card := by
    rw [hcard]
    exact lt_of_le_of_lt degree_le_natDegree (by exact_mod_cast hp)
  rw [combine_eq_some h, ← sum_zeroWeight hinj hdeg, Finset.sum_smul]
  refine congrArg some (Finset.sum_congr rfl fun j hj => ?_)
  rw [hv j hj, Option.getD_some, smul_smul]

/-- Recombination where all held values are those of one polynomial. -/
theorem combine_eval (hx : Set.InjOn x (Set.Iio vals.length)) {p : F[X]} (hp : p.natDegree < k)
    (e : M) (hv : ∀ j < vals.length, ∀ v, valueAt vals j = some v → v = p.eval (x j) • e) :
    combine x k vals =
      if k ≤ vals.countP Option.isSome then some (p.eval 0 • e) else none := by
  by_cases h : k ≤ vals.countP Option.isSome
  · rw [if_pos h]
    apply combine_eval_of_chosen hx hp e h
    intro j hj
    obtain ⟨hlt, v, hval⟩ := mem_chosen hj
    rw [hval, hv j hlt v hval]
  · rw [if_neg h, combine_eq_none (by omega)]

/-- Recombination commutes with linear maps. -/
theorem combine_map (f : M →ₗ[F] N) :
    combine x k (vals.map (Option.map f)) = (combine x k vals).map f := by
  have hval : ∀ j, valueAt (vals.map (Option.map f)) j = (valueAt vals j).map f := fun j => by
    unfold valueAt
    rw [List.getD_eq_getElem?_getD, List.getD_eq_getElem?_getD, List.getElem?_map]
    cases vals[j]? <;> rfl
  have hpat : ∀ j, (valueAt (vals.map (Option.map f)) j).isSome = (valueAt vals j).isSome :=
    fun j => by rw [hval, Option.isSome_map]
  have hl : (vals.map (Option.map f)).length = vals.length := List.length_map _
  unfold combine
  rw [heldIndices_congr hl hpat, chosen_congr k hl hpat]
  split_ifs with h
  · rfl
  · rw [Option.map_some, map_sum]
    refine congrArg some (Finset.sum_congr rfl fun j hj => ?_)
    obtain ⟨-, v, hv⟩ := mem_chosen hj
    rw [hval, hv, map_smul]
    rfl

/-- Subtracting the values of a polynomial of degree below `k` from the held values subtracts its
value at zero. -/
theorem combine_sub {vals' : List (Option M)} (hl : vals'.length = vals.length)
    (hx : Set.InjOn x (Set.Iio vals.length)) {p : F[X]} (hp : p.natDegree < k) (e : M)
    (hv : ∀ j < vals.length, valueAt vals' j = (valueAt vals j).map (· - p.eval (x j) • e)) :
    combine x k vals' = (combine x k vals).map (· - p.eval 0 • e) := by
  have hpat : ∀ j, (valueAt vals' j).isSome = (valueAt vals j).isSome := fun j => by
    by_cases hj : j < vals.length
    · rw [hv j hj, Option.isSome_map]
    · unfold valueAt
      rw [List.getD_eq_default _ _ (by omega), List.getD_eq_default _ _ (by omega)]
  unfold combine
  rw [heldIndices_congr hl hpat, chosen_congr k hl hpat]
  split_ifs with h
  · rfl
  · have hinj : Set.InjOn x (chosen k vals) :=
      hx.mono fun j hj => Set.mem_Iio.2 (mem_chosen (Finset.mem_coe.1 hj)).1
    have hdeg : p.degree < (chosen k vals).card := by
      rw [card_chosen h]
      exact lt_of_le_of_lt degree_le_natDegree (by exact_mod_cast hp)
    rw [Option.map_some, ← sum_zeroWeight hinj hdeg, Finset.sum_smul, ← Finset.sum_sub_distrib]
    refine congrArg some (Finset.sum_congr rfl fun j hj => ?_)
    obtain ⟨hlt, v, hval⟩ := mem_chosen hj
    rw [hv j hlt, hval, Option.map_some, Option.getD_some, Option.getD_some, smul_sub, smul_smul]

/-- Changing the value of one chosen child moves the recombined value by the weight of the
child. -/
theorem combine_spike {vals' : List (Option M)} (hl : vals'.length = vals.length)
    (hpat : ∀ j, (valueAt vals' j).isSome = (valueAt vals j).isSome) {i : ℕ}
    (hi : i ∈ chosen k vals) {d : M}
    (hvi : valueAt vals' i = (valueAt vals i).map (· + d))
    (hv : ∀ j ∈ chosen k vals, j ≠ i → valueAt vals' j = valueAt vals j) :
    combine x k vals' =
      (combine x k vals).map (· + zeroWeight x (chosen k vals) i • d) := by
  unfold combine
  rw [heldIndices_congr hl hpat, chosen_congr k hl hpat]
  split_ifs with h
  · rfl
  · rw [Option.map_some, ← Finset.add_sum_erase _ _ hi, ← Finset.add_sum_erase _ _ hi]
    obtain ⟨-, v, hval⟩ := mem_chosen hi
    have hrest : ∀ j ∈ (chosen k vals).erase i, valueAt vals' j = valueAt vals j := fun j hj =>
      hv j (Finset.mem_of_mem_erase hj) (Finset.ne_of_mem_erase hj)
    rw [Finset.sum_congr rfl fun j hj => by rw [hrest j hj]]
    rw [hvi, hval, Option.map_some, Option.getD_some, Option.getD_some, smul_add]
    exact congrArg some (add_right_comm _ _ _)

end Values

end Threshold
