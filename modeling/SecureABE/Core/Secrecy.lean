import SecureABE.Core.Recombination
import SecureABE.Foundations.Translation
import Mathlib.Algebra.Field.ZMod

/-!
# Secrecy of the shares

An attribute set that does not satisfy a tree learns nothing about the shared secret from its
shares: every view occurs for as many choices of the random coefficients under one secret as under
any other (`card_views_eq`).

The argument is a translation. At a gate that is not satisfied fewer than `threshold` children are,
so there is a polynomial with any value at zero that vanishes at those children; adding its
coefficients to the random ones, and so on down to the leaves, moves the secret and leaves the
shares of the set as they are (`exists_mask`).
-/

namespace SecureABE.Core

open Rust SecureABE.Policy Threshold Interpolation

variable {F : Type} [Field F]

/-! ## Generators -/

/-- The generator that delivers the scalars of a finite family. -/
def tape {n : ℕ} (c : Fin n → F) : Rng F := fun i => if h : i < n then c ⟨i, h⟩ else 0

/-- The first `n` scalars of one generator, then those of another. -/
def splice (n : ℕ) (front back : Rng F) : Rng F := fun i => if i < n then front i else back (i - n)

omit [Field F] in
theorem splice_of_lt {n i : ℕ} (front back : Rng F) (h : i < n) : splice n front back i = front i :=
  if_pos h

omit [Field F] in
theorem drop_splice (n : ℕ) (front back : Rng F) : (splice n front back).drop n = back := by
  funext i
  rw [Rng.drop_apply, splice, if_neg (by omega), Nat.add_sub_cancel_left]

/-- The scalars of `rng` with those of `mask` added. -/
def shift (rng mask : Rng F) : Rng F := fun n => rng n + mask n

theorem drop_shift (n : ℕ) (rng mask : Rng F) : (shift rng mask).drop n = shift (rng.drop n) (mask.drop n) :=
  rfl

/-! ## The mask -/

/-- The shares of the attributes of a set. -/
def view (H : List String) (shares : List (Share F)) : List (Share F) :=
  shares.filter fun sh => decide (sh.attr ∈ H)

omit [Field F] in
theorem view_append (H : List String) (l l' : List (Share F)) :
    view H (l ++ l') = view H l ++ view H l' := List.filter_append ..

/-- The pattern of the satisfied children. -/
def pattern (H : List String) (cs : List AccessTree) : List (Option Unit) :=
  cs.map fun c => if c.isSatisfiedBy H then some () else none

theorem countP_pattern (H : List String) (cs : List AccessTree) :
    (pattern H cs).countP Option.isSome = cs.countP (·.isSatisfiedBy H) := by
  rw [pattern, List.countP_map]
  apply List.countP_congr
  intro c _
  simp only [Function.comp_apply]
  split_ifs with h <;> simp [h]

theorem isSome_valueAt_pattern {H : List String} {cs : List AccessTree} {j : ℕ} {c : AccessTree}
    (hc : cs[j]? = some c) : (valueAt (pattern H cs) j).isSome = c.isSatisfiedBy H := by
  unfold valueAt pattern
  rw [List.getD_eq_getElem?_getD, List.getElem?_map, hc]
  by_cases h : c.isSatisfiedBy H <;> simp [h]

/-- The positions of the satisfied children. -/
def satisfiedAt (H : List String) (cs : List AccessTree) : Finset ℕ :=
  (heldIndices (pattern H cs)).toFinset

theorem card_satisfiedAt (H : List String) (cs : List AccessTree) :
    (satisfiedAt H cs).card = cs.countP (·.isSatisfiedBy H) := by
  rw [satisfiedAt, List.toFinset_card_of_nodup (nodup_heldIndices _), length_heldIndices,
    countP_pattern]

theorem mem_satisfiedAt {H : List String} {cs : List AccessTree} {j : ℕ} :
    j ∈ satisfiedAt H cs ↔ ∃ c, cs[j]? = some c ∧ c.isSatisfiedBy H := by
  rw [satisfiedAt, List.mem_toFinset, heldIndices, List.mem_filter, List.mem_range, pattern,
    List.length_map]
  constructor
  · rintro ⟨hlt, h⟩
    have hc : cs[j]? = some cs[j] := List.getElem?_eq_getElem hlt
    exact ⟨cs[j], hc, (isSome_valueAt_pattern hc).symm.trans h⟩
  · rintro ⟨c, hc, hsat⟩
    exact ⟨(List.getElem?_eq_some_iff.1 hc).1, (isSome_valueAt_pattern hc).trans hsat⟩

/-- The masks of the children of a gate put together: a child that is not satisfied has one for any
change of its share, the share of a satisfied child does not change. -/
theorem exists_mask_children (H : List String) (cs : List AccessTree)
    (hcs : ∀ c ∈ cs, c.isSatisfiedBy H = false → ∀ d : F, ∃ mask : Rng F, ∀ s rng path,
      view H (sharesAt c (s + d) (shift rng mask) path) = view H (sharesAt c s rng path))
    (i : ℕ) (dq : ℕ → F) (hdq : ∀ j ∈ satisfiedAt H cs, dq (i + j + 1) = 0) :
    ∃ mask : Rng F, ∀ (q : ℕ → F) rng path,
      view H (sharesOf cs (fun j => q j + dq j) i (shift rng mask) path) =
        view H (sharesOf cs q i rng path) := by
  induction cs generalizing i with
  | nil => exact ⟨0, fun q rng path => rfl⟩
  | cons c cs ih =>
    obtain ⟨back, hback⟩ := ih (fun d hd => hcs d (by simp [hd])) (i + 1) (fun j hj => by
      obtain ⟨d, hd, hsat⟩ := mem_satisfiedAt.1 hj
      have := hdq (j + 1) (mem_satisfiedAt.2 ⟨d, by simpa using hd, hsat⟩)
      rwa [show i + (j + 1) + 1 = i + 1 + j + 1 by omega] at this)
    obtain ⟨front, hfront⟩ : ∃ front : Rng F, ∀ s rng path,
        view H (sharesAt c (s + dq (i + 1)) (shift rng front) path) =
          view H (sharesAt c s rng path) := by
      by_cases hsat : c.isSatisfiedBy H = true
      · refine ⟨0, fun s rng path => ?_⟩
        have hzero := hdq 0 (mem_satisfiedAt.2 ⟨c, rfl, hsat⟩)
        rw [Nat.add_zero] at hzero
        rw [hzero, add_zero]
        refine congrArg (view H) (sharesAt_congr (fun n _ => ?_) s path)
        exact add_zero (rng n)
      · exact hcs c (by simp) (by simpa using hsat) _
    refine ⟨splice (coeffCount c) front back, fun q rng path => ?_⟩
    have hc : sharesAt c (q (i + 1) + dq (i + 1)) (shift rng (splice (coeffCount c) front back))
        (path ++ [i + 1]) =
        sharesAt c (q (i + 1) + dq (i + 1)) (shift rng front) (path ++ [i + 1]) :=
      sharesAt_congr (fun n hn => by rw [shift, shift, splice_of_lt _ _ hn]) _ _
    unfold sharesOf
    rw [view_append, view_append, hc, hfront, drop_shift, drop_splice, hback]

/-- **The mask**: if a set does not satisfy a tree, adding the scalars of some `mask` to the random
coefficients moves the secret by `d` and does not change the shares of the set. -/
theorem exists_mask {n : ℕ} (hF : IndicesDistinct F n) {H : List String} {t : AccessTree}
    (ht : t.ChildrenLt n) (hsat : t.isSatisfiedBy H = false) (d : F) :
    ∃ mask : Rng F, ∀ s rng path,
      view H (sharesAt t (s + d) (shift rng mask) path) = view H (sharesAt t s rng path) := by
  induction t using AccessTree.induct generalizing d with
  | leaf a =>
    have ha : a ∉ H := by simpa using hsat
    exact ⟨0, fun s rng path => by simp [sharesAt, view, ha]⟩
  | gate k cs ih =>
    obtain ⟨hlen, hcs⟩ := AccessTree.childrenLt_gate.1 ht
    rw [AccessTree.isSatisfiedBy_gate, decide_eq_false_iff_not, not_le,
      ← card_satisfiedAt] at hsat
    -- a polynomial with value `d` at zero that vanishes at the satisfied children
    have hnode : ∀ j ∈ satisfiedAt H cs, node F j ≠ 0 := by
      intro j hj
      obtain ⟨c, hc, -⟩ := mem_satisfiedAt.1 hj
      have hlt := (List.getElem?_eq_some_iff.1 hc).1
      exact hF.node_ne_zero (by omega)
    obtain ⟨coeffs, hcoeffs⟩ := exists_maskCoeffs hnode (d := k - 1) (by omega) d
    obtain ⟨back, hback⟩ := exists_mask_children H cs
      (fun c hc hsat d => ih c hc (hcs c hc) hsat d) 0 (gateShare k d coeffs) (fun j hj => by
        rw [gateShare_eq, Nat.zero_add]
        exact hcoeffs j hj)
    refine ⟨splice (k - 1) coeffs back, fun s rng path => ?_⟩
    have hshare : gateShare k (s + d) (shift rng (splice (k - 1) coeffs back)) =
        fun j => gateShare k s rng j + gateShare k d coeffs j := by
      funext j
      rw [← gateShare_add]
      refine congrFun (gateShare_congr (fun n hn => ?_) _) j
      rw [shift, splice_of_lt _ _ hn]
    unfold sharesAt
    rw [hshare, drop_shift, drop_splice, hback]

/-! ## Counting -/

/-- The number of choices of the coefficients under which the leaves of `H` have the shares `v`. -/
noncomputable def views (t : AccessTree) (H : List String) (v : List ℕ → F) (s : F) : ℕ :=
  Nat.card {c : Fin (coeffCount t) → F //
    ∀ sh ∈ (shareSecret t s (tape c)).1, sh.attr ∈ H → sh.lambda = v sh.path}

/-- **Perfect secrecy of the sharing.** The coefficients are all the scalars that `shareSecret` reads
(`shareSecret_eq`), and a field of `p` elements has characteristic `p`. -/
theorem card_views_eq {p : ℕ} [CharP F p] {t : AccessTree} (ht : t.ChildrenLt p) {H : List String}
    (hsat : t.isSatisfiedBy H = false) (v : List ℕ → F) (s s' : F) :
    views t H v s = views t H v s' := by
  obtain ⟨mask, hmask⟩ := exists_mask (IndicesDistinct.of_charP le_rfl) ht hsat (s' - s)
  let m : Fin (coeffCount t) → F := fun i => mask i
  apply Translation.card_eq_of_translate m
  intro c
  have htape : sharesAt t s' (tape (c + m)) [] = sharesAt t s' (shift (tape c) mask) [] :=
    sharesAt_congr (fun n hn => by simp [tape, shift, hn, m]) _ _
  have hview := hmask s (tape c) []
  rw [add_sub_cancel] at hview
  have hmem : ∀ (shares : List (Share F)),
      (∀ sh ∈ shares, sh.attr ∈ H → sh.lambda = v sh.path) ↔
        ∀ sh ∈ view H shares, sh.lambda = v sh.path := by
    intro shares
    simp [view]
  rw [shareSecret_eq, shareSecret_eq, hmem, hmem, htape, hview]

/-- A threshold of two over two leaves, one of them held, over the field of three elements. -/
theorem card_views_two_of_two :
    views (AccessTree.gate 2 [.leaf "a", .leaf "b"]) ["a"] (fun _ => 1) (0 : ZMod 3) =
      views (AccessTree.gate 2 [.leaf "a", .leaf "b"]) ["a"] (fun _ => 1) (2 : ZMod 3) :=
  card_views_eq (show AccessTree.ChildrenLt 3 _ by decide) (by decide) (fun _ => 1) 0 2

end SecureABE.Core
