import SecureABE.Foundations.Outcome
import SecureABE.Foundations.HashMap
import SecureABE.Policy.Tree
import Mathlib.Algebra.Module.Basic
import Mathlib.Algebra.Field.Basic

/-!
# Secret sharing over an access tree

`core/src/share.rs`: Shamir sharing down a threshold tree and Lagrange recombination at zero.

* The random generator is the stream `Rng F` of the scalars it will still deliver, so a statement
  about every stream is one about every choice of the random values.
* `path` is the buffer the recursive functions push to and pop from; they return it with their
  result, so that its state after a call can be stated.
* A scalar without inverse makes `lagrangeCombine` panic, through the `expect` of the source.
-/

namespace SecureABE.Core

open Rust SecureABE.Policy

variable {F Gₜ ε : Type}

/-! ## Random scalars -/

/-- A random generator: the scalars it delivers, in order. -/
abbrev Rng (F : Type) := ℕ → F

namespace Rng

/-- `Scalar::random`: the next scalar. -/
def next (rng : Rng F) : F × Rng F := (rng 0, fun n => rng (n + 1))

/-- The generator after `n` scalars. -/
def drop (n : ℕ) (rng : Rng F) : Rng F := fun m => rng (n + m)

/-- The next `n` scalars. -/
def take (n : ℕ) (rng : Rng F) : List F := (List.range n).map rng

@[simp] theorem drop_apply (n m : ℕ) (rng : Rng F) : rng.drop n m = rng (n + m) := rfl

@[simp] theorem drop_zero (rng : Rng F) : rng.drop 0 = rng := by
  funext m
  simp

theorem drop_drop (m n : ℕ) (rng : Rng F) : (rng.drop m).drop n = rng.drop (m + n) := by
  funext k
  simp [Nat.add_assoc]

theorem next_fst (rng : Rng F) : rng.next.1 = rng 0 := rfl

theorem next_snd (rng : Rng F) : rng.next.2 = rng.drop 1 := by
  funext n
  simp [next, Nat.add_comm]

end Rng

section Field

variable [Field F]

/-! ## Polynomials -/

/-- A polynomial over the scalar field, stored low-degree-coefficient first. -/
structure Polynomial (F : Type) where
  coeffs : List F

/-- A polynomial with the given constant and `degree` random coefficients. -/
def Polynomial.randomWithConstant (constant : F) (degree : ℕ) (rng : Rng F) :
    Polynomial F × Rng F :=
  (⟨constant :: rng.take degree⟩, rng.drop degree)

/-- Horner's method, from the highest degree coefficient down. -/
def Polynomial.eval (poly : Polynomial F) (x : F) : F :=
  poly.coeffs.reverse.foldl (fun acc c => acc * x + c) 0

/-- `Scalar::from(index)`. -/
def indexScalar (F : Type) [Field F] (index : ℕ) : F := index

/-! ## Sharing -/

/-- The share of a leaf: its path, its attribute and the value `lambda`. -/
structure Share (F : Type) where
  path : List ℕ
  attr : String
  lambda : F

/-- What the recursion of `share_node` passes along: the generator, the path buffer and the shares
made so far. -/
structure ShareState (F : Type) where
  rng : Rng F
  path : List ℕ
  out : List (Share F)

mutual

def shareNode : AccessTree → F → ShareState F → ShareState F
  | .leaf attr, secret, st => { st with out := st.out ++ [⟨st.path, attr, secret⟩] }
  | .gate threshold children, secret, st =>
    let degree := threshold - 1
    let (poly, rng) := Polynomial.randomWithConstant secret degree st.rng
    shareChildren children poly 0 { st with rng := rng }

/-- The loop of `share_node` over the children of a gate, from the one of index `i` on. -/
def shareChildren : List AccessTree → Polynomial F → ℕ → ShareState F → ShareState F
  | [], _, _, st => st
  | child :: children, poly, i, st =>
    let idx := i + 1
    let childSecret := poly.eval (indexScalar F idx)
    let st := shareNode child childSecret { st with path := st.path ++ [idx] }
    shareChildren children poly (i + 1) { st with path := st.path.dropLast }

end

/-- Recursively splits `secret` down an access tree, returning the share of every leaf. -/
def shareSecret (tree : AccessTree) (secret : F) (rng : Rng F) : List (Share F) × Rng F :=
  let st := shareNode tree secret ⟨rng, [], []⟩
  (st.out, st.rng)

/-! ## Recombination -/

variable [DecidableEq F] [AddCommGroup Gₜ] [Module F Gₜ]

/-- `Scalar::invert`. -/
def invert (x : F) : Option F := if x = 0 then none else some x⁻¹

/-- The inner loop of `lagrange_combine`: numerator and denominator of the coefficient of index
`i`. -/
def lagrangeTerms (F : Type) [Field F] (i : ℕ) (indices : List ℕ) : F × F :=
  indices.foldl (fun (t : F × F) j =>
    if i = j then t else (t.1 * -indexScalar F j, t.2 * (indexScalar F i - indexScalar F j))) (1, 1)

/-- The outer loop's body: it adds the contribution of one point to `acc`. -/
def lagrangeStep (F : Type) [Field F] [DecidableEq F] [Module F Gₜ] (indices : List ℕ) (acc : Gₜ)
    (p : ℕ × Gₜ) : Outcome ε Gₜ := do
  let (num, den) := lagrangeTerms F p.1 indices
  let inv ← Outcome.expect "distinct indices imply invertible denominator" (invert den)
  .ok (acc + (num * inv) • p.2)

/-- Recovers the value at zero from the values at the given indices. -/
def lagrangeCombine (F : Type) [Field F] [DecidableEq F] [Module F Gₜ] (points : List (ℕ × Gₜ)) :
    Outcome ε Gₜ :=
  points.foldlM (lagrangeStep F (points.map Prod.fst)) 0

/-- The pairing values recovered for the held leaves, by path. -/
abbrev LeafResult (Gₜ : Type) := HashMap (List ℕ) Gₜ

mutual

/-- Recombines pairing values bottom-up through the tree. -/
def recombine (F : Type) [Field F] [DecidableEq F] [Module F Gₜ] :
    AccessTree → LeafResult Gₜ → List ℕ → Outcome ε (Option Gₜ × List ℕ)
  | .leaf _, leafResults, path => .ok (leafResults.lookup path, path)
  | .gate threshold children, leafResults, path => do
    let (satisfied, path) ← recombineChildren F children threshold leafResults 0 path []
    if satisfied.length < threshold then .ok (none, path)
    else do
      let val ← lagrangeCombine F (satisfied.take threshold)
      .ok (some val, path)

/-- The loop of `recombine` over the children of a gate, from the one of index `i` on; it stops as
soon as `threshold` children are satisfied. -/
def recombineChildren (F : Type) [Field F] [DecidableEq F] [Module F Gₜ] :
    List AccessTree → ℕ → LeafResult Gₜ → ℕ → List ℕ → List (ℕ × Gₜ) →
      Outcome ε (List (ℕ × Gₜ) × List ℕ)
  | [], _, _, _, path, satisfied => .ok (satisfied, path)
  | child :: children, threshold, leafResults, i, path, satisfied => do
    let idx := i + 1
    let (val, path) ← recombine F child leafResults (path ++ [idx])
    let satisfied := match val with
      | some val => satisfied ++ [(idx, val)]
      | none => satisfied
    let path := path.dropLast
    if threshold ≤ satisfied.length then .ok (satisfied, path)
    else recombineChildren F children threshold leafResults (i + 1) path satisfied

end

end Field

end SecureABE.Core
