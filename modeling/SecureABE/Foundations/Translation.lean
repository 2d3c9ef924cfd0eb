import Mathlib.Algebra.Module.Basic
import Mathlib.Algebra.Field.Basic
import Mathlib.SetTheory.Cardinal.Finite

/-!
# Counting by translation

Two ways to compare numbers of random choices: a translation that carries one event to another
(`card_eq_of_translate`), and a direction in which a value moves, so that it vanishes for at most one
choice on each line (`card_zeros_mul_card_le`), and for exactly one where there always is a value
(`card_zeros_mul_card`).
-/

namespace Translation

/-- Events that correspond under a translation occur for equally many choices. -/
theorem card_eq_of_translate {V : Type*} [AddGroup V] {P Q : V → Prop} (d : V)
    (h : ∀ v, P v ↔ Q (v + d)) : Nat.card {v // P v} = Nat.card {v // Q v} :=
  Nat.card_congr (Equiv.subtypeEquiv (Equiv.addRight d) h)

/-- A value that grows with a nonzero slope in the direction `d` vanishes for at most one choice out
of as many as the field has elements. -/
theorem card_zeros_mul_card_le {F V : Type*} [Field F] [AddCommGroup V] [Module F V] [Finite V]
    {f : V → Option F} {d : V} {g : F} (hg : g ≠ 0)
    (h : ∀ v (x : F), f (v + x • d) = (f v).map (· + x * g)) :
    Nat.card {v // f v = some 0} * Nat.card F ≤ Nat.card V := by
  rw [← Nat.card_prod]
  apply Nat.card_le_card_of_injective (fun vx : {v // f v = some 0} × F => vx.1.1 + vx.2 • d)
  rintro ⟨⟨v, hv⟩, x⟩ ⟨⟨w, hw⟩, y⟩ heq
  simp only at heq
  -- the value at the common point gives the distance along the line
  have hx : f (v + x • d) = some (x * g) := by rw [h, hv, Option.map_some, zero_add]
  have hy : f (w + y • d) = some (y * g) := by rw [h, hw, Option.map_some, zero_add]
  have hxy : x = y := by
    rw [heq, hy] at hx
    exact (mul_right_cancel₀ hg (Option.some.inj hx)).symm
  subst hxy
  obtain rfl : v = w := add_right_cancel heq
  rfl

/-- Such a value, where there always is one, vanishes for exactly one choice on each line. -/
theorem card_zeros_mul_card {F V : Type*} [Field F] [Finite F] [AddCommGroup V] [Module F V] [Finite V]
    {f : V → Option F} {d : V} {g : F} (hg : g ≠ 0)
    (h : ∀ v (x : F), f (v + x • d) = (f v).map (· + x * g)) (hsome : ∀ v, (f v).isSome) :
    Nat.card {v // f v = some 0} * Nat.card F = Nat.card V := by
  apply le_antisymm (card_zeros_mul_card_le hg h)
  rw [← Nat.card_prod]
  apply Nat.card_le_card_of_surjective (fun vx : {v // f v = some 0} × F => vx.1.1 + vx.2 • d)
  intro w
  obtain ⟨y, hy⟩ := Option.isSome_iff_exists.1 (hsome w)
  -- go back along the line until the value is zero
  have hzero : f (w + (-(y * g⁻¹)) • d) = some 0 := by
    rw [h, hy, Option.map_some, neg_mul, inv_mul_cancel_right₀ hg, add_neg_cancel]
  refine ⟨(⟨_, hzero⟩, y * g⁻¹), ?_⟩
  simp only [neg_smul, neg_add_cancel_right]

end Translation
