import SecureABE.Core.Secrecy

/-!
# Directions

How the recombined scalar of a tree moves when the secret and the random coefficients do.

A direction of a child that recombination chooses gives one of its gate (`exists_gateDirection`): the
polynomial of the gate changes so that the share of this child moves and those of the other chosen
children stay (`gateMask`). Such directions show that an event about the recombined scalar is rare
among the choices of the random scalars.
-/

namespace SecureABE.Core

open Rust SecureABE.Policy Threshold Interpolation

variable {F : Type} [Field F]

/-! ## Changes of a generator -/

/-- The scalars of `mask`, from position `start` on and for `len` positions; zero elsewhere. -/
def place (start len : ℕ) (mask : Rng F) : Rng F :=
  fun n => if start ≤ n ∧ n < start + len then mask (n - start) else 0

/-- The multiples of the scalars of a generator. -/
def scale (x : F) (mask : Rng F) : Rng F := fun n => x * mask n

/-! ## Changes of a gate -/

section Gate

variable {k : ℕ} {cs : List AccessTree} {rho : String → Option F}

/-- The values of the children of a gate. -/
def gateValues (rho : String → Option F) (k : ℕ) (cs : List AccessTree) (s : F) (rng : Rng F) :
    List (Option F) :=
  recoveredOf rho cs (gateShare k s rng) 0 (rng.drop (k - 1))

theorem isSome_gateValues {H : List String} (hH : ∀ a, (rho a).isSome = decide (a ∈ H)) (s : F)
    (rng : Rng F) (j : ℕ) :
    (valueAt (gateValues rho k cs s rng) j).isSome = (valueAt (pattern H cs) j).isSome := by
  cases hc : cs[j]? with
  | some c =>
    rw [gateValues, valueAt_recoveredOf_gate hc, isSome_recovered hH, isSome_valueAt_pattern hc]
  | none =>
    have hlen := List.getElem?_eq_none_iff.1 hc
    rw [valueAt, valueAt, List.getD_eq_default _ _ (by rwa [gateValues, length_recoveredOf]),
      List.getD_eq_default _ _ (by rwa [pattern, List.length_map])]
    rfl

theorem length_gateValues (s : F) (rng : Rng F) :
    (gateValues rho k cs s rng).length = cs.length := length_recoveredOf _ _ _ _ _

/-- The chosen children are the same for all secrets and coefficients. -/
theorem chosen_gateValues {H : List String} (hH : ∀ a, (rho a).isSome = decide (a ∈ H)) (s : F)
    (rng : Rng F) : chosen k (gateValues rho k cs s rng) = chosen k (pattern H cs) :=
  chosen_congr k (by rw [length_gateValues, pattern, List.length_map]) (isSome_gateValues hH s rng)

variable {ds : F} {coeffs mask : Rng F} {i : ℕ} {c : AccessTree}

/-- The change of a gate's scalars: its own coefficients, and those of the child at position `i`. -/
def gateMask (k : ℕ) (cs : List AccessTree) (i : ℕ) (c : AccessTree) (coeffs mask : Rng F) : Rng F :=
  splice (k - 1) coeffs (place (childOffset cs i) (coeffCount c) mask)

/-- The shares of the children move along the polynomial of the change. -/
theorem gateShare_shift_gateMask (s x : F) (rng : Rng F) (j : ℕ) :
    gateShare k (s + x * ds) (shift rng (scale x (gateMask k cs i c coeffs mask))) j =
      gateShare k s rng j + x * gateShare k ds coeffs j := by
  rw [← gateShare_mul, ← gateShare_add]
  refine congrFun (gateShare_congr (fun n hn => ?_) _) j
  unfold shift scale gateMask
  rw [splice_of_lt _ _ hn]

/-- The child at position `i` gets its own change. -/
theorem recovered_shift_self (s x : F) (rng : Rng F) :
    recovered rho c s ((shift rng (scale x (gateMask k cs i c coeffs mask))).drop
        (k - 1 + childOffset cs i)) =
      recovered rho c s (shift (rng.drop (k - 1 + childOffset cs i)) (scale x mask)) := by
  refine recovered_congr (fun n hn => ?_) s
  rw [Rng.drop_apply, shift, shift, scale, scale, gateMask, splice, if_neg (by omega), place,
    if_pos (by omega)]
  congr 3
  omega

/-- A child at another position keeps its scalars. -/
theorem recovered_shift_other (hc : cs[i]? = some c) {j : ℕ} {d : AccessTree} (hd : cs[j]? = some d)
    (hij : j ≠ i) (s x : F) (rng : Rng F) :
    recovered rho d s ((shift rng (scale x (gateMask k cs i c coeffs mask))).drop
        (k - 1 + childOffset cs j)) =
      recovered rho d s (rng.drop (k - 1 + childOffset cs j)) := by
  refine recovered_congr (fun n hn => ?_) s
  have hsep : childOffset cs j + n < childOffset cs i ∨
      childOffset cs i + coeffCount c ≤ childOffset cs j + n := by
    rcases lt_or_gt_of_ne hij with h | h
    · have := childOffset_add_coeffCount_le_childOffset hd h
      omega
    · have := childOffset_add_coeffCount_le_childOffset hc h
      omega
  rw [Rng.drop_apply, shift, scale, gateMask, splice, if_neg (by omega), place, if_neg (by omega),
    mul_zero, add_zero, Rng.drop_apply]

end Gate

/-- A chosen child is satisfied. -/
theorem exists_chosen {H : List String} {k : ℕ} {cs : List AccessTree} {j : ℕ}
    (hj : j ∈ chosen k (pattern H cs)) :
    ∃ c ∈ cs, cs[j]? = some c ∧ c.isSatisfiedBy H = true := by
  obtain ⟨hlt, hsome⟩ := mem_chosen hj
  rw [pattern, List.length_map] at hlt
  have hc : cs[j]? = some cs[j] := List.getElem?_eq_getElem hlt
  refine ⟨cs[j], List.getElem_mem hlt, hc, ?_⟩
  rw [← isSome_valueAt_pattern hc, Option.isSome_iff_exists]
  exact hsome

/-! ## Directions -/

/-- The recombined scalar of a tree moves with the slope `e` when the secret moves by `ds` and the
scalars by those of `mask`. -/
def Direction (rho : String → Option F) (t : AccessTree) (ds : F) (mask : Rng F) (e : F) : Prop :=
  ∀ s rng x, recovered rho t (s + x * ds) (shift rng (scale x mask)) =
    (recovered rho t s rng).map (· + x * e)

/-- **A direction of a chosen child gives one of its gate**, scaled by the weight of the child. -/
theorem exists_gateDirection {n : ℕ} (hF : IndicesDistinct F n) {rho : String → Option F}
    {H : List String} (hH : ∀ a, (rho a).isSome = decide (a ∈ H)) {k : ℕ} {cs : List AccessTree}
    (hlen : cs.length < n) (hheld : k ≤ cs.countP (·.isSatisfiedBy H)) {i : ℕ} {c : AccessTree}
    (hc : cs[i]? = some c) (hi : i ∈ chosen k (pattern H cs)) {dsᵢ e : F} {maskᵢ : Rng F}
    (hdir : Direction rho c dsᵢ maskᵢ e) :
    ∃ w mask, w ≠ 0 ∧ Direction rho (.gate k cs) (w * dsᵢ) mask (w * e) := by
  rw [← countP_pattern, ← length_heldIndices] at hheld
  have hcard : (chosen k (pattern H cs)).card = k := card_chosen (by omega)
  have hltlen : ∀ j ∈ chosen k (pattern H cs), j < cs.length := fun j hj => by
    have := (mem_chosen hj).1
    rwa [pattern, List.length_map] at this
  have hinj : Set.InjOn (node F) (chosen k (pattern H cs)) :=
    (hF.injOn_node hlen).mono fun j hj => hltlen j (Finset.mem_coe.1 hj)
  have hpos : 0 < k := hcard ▸ Finset.card_pos.2 ⟨i, hi⟩
  -- a polynomial that moves the share of this child and of no other chosen one
  obtain ⟨ds, coeffs, hspike, hrest⟩ := exists_spikeCoeffs (d := k - 1) hinj hi (by omega) dsᵢ
  have hds := constant_eq_of_spike hinj hi (by omega) hspike hrest
  have hspike' : gateShare k ds coeffs (i + 1) = dsᵢ := by
    rw [gateShare_eq]
    exact hspike
  refine ⟨zeroWeight (node F) (chosen k (pattern H cs)) i, gateMask k cs i c coeffs maskᵢ,
    zeroWeight_ne_zero hinj (fun j hj => hF.node_ne_zero ?_) hi, ?_⟩
  · have := hltlen j hj
    omega
  rw [← hds]
  intro s rng x
  have hchosen : chosen k (gateValues rho k cs s rng) = chosen k (pattern H cs) :=
    chosen_gateValues hH s rng
  have hpat : ∀ j, (valueAt (gateValues rho k cs (s + x * ds)
      (shift rng (scale x (gateMask k cs i c coeffs maskᵢ)))) j).isSome =
        (valueAt (gateValues rho k cs s rng) j).isSome := fun j => by
    rw [isSome_gateValues hH, isSome_gateValues hH]
  have hvi : valueAt (gateValues rho k cs (s + x * ds)
      (shift rng (scale x (gateMask k cs i c coeffs maskᵢ)))) i =
        (valueAt (gateValues rho k cs s rng) i).map (· + x * e) := by
    rw [gateValues, gateValues, valueAt_recoveredOf_gate hc, valueAt_recoveredOf_gate hc,
      gateShare_shift_gateMask, recovered_shift_self, hspike', hdir]
  have hv : ∀ j ∈ chosen k (gateValues rho k cs s rng), j ≠ i →
      valueAt (gateValues rho k cs (s + x * ds)
        (shift rng (scale x (gateMask k cs i c coeffs maskᵢ)))) j =
          valueAt (gateValues rho k cs s rng) j := by
    intro j hj hne
    rw [hchosen] at hj
    obtain ⟨d, hd⟩ : ∃ d, cs[j]? = some d := ⟨_, List.getElem?_eq_getElem (hltlen j hj)⟩
    have hzero' : gateShare k ds coeffs (j + 1) = 0 := by
      rw [gateShare_eq]
      exact hrest j hj hne
    rw [gateValues, gateValues, valueAt_recoveredOf_gate hd, valueAt_recoveredOf_gate hd,
      gateShare_shift_gateMask, recovered_shift_other hc hd hne, hzero', mul_zero, add_zero]
  have hmove := combine_spike (x := node F) (k := k)
    (by rw [length_gateValues, length_gateValues]) hpat (hchosen ▸ hi) hvi hv
  unfold recovered
  apply hmove.trans
  rw [hchosen]
  refine congrArg (fun f => Option.map f _) (funext fun v => ?_)
  rw [smul_eq_mul, mul_left_comm]

/-- A direction, as one of the random scalars of an encryption: the secret and the coefficients. -/
theorem Direction.exists_tape {rho : String → Option F} {t : AccessTree} {ds e : F} {mask : Rng F}
    (h : Direction rho t ds mask e) : ∃ d : Fin (1 + coeffCount t) → F, ∀ c (x : F),
      tape (c + x • d) 0 = tape c 0 + x * ds ∧
      recovered rho t (tape (c + x • d) 0) ((tape (c + x • d)).drop 1) =
        (recovered rho t (tape c 0) ((tape c).drop 1)).map (· + x * e) := by
  let d : Fin (1 + coeffCount t) → F := fun i => if (i : ℕ) = 0 then ds else mask (i - 1)
  refine ⟨d, fun c x => ?_⟩
  have hs : tape (c + x • d) 0 = tape c 0 + x * ds := by simp [tape, d]
  refine ⟨hs, (congrArg (recovered rho t · _) hs).trans (Eq.trans ?_ (h _ _ x))⟩
  refine recovered_congr (fun n hn => ?_) _
  simp [tape, shift, scale, d, hn]

end SecureABE.Core
