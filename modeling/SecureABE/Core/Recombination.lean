import SecureABE.Core.Sharing

/-!
# What recombination computes

* `recombine_eq`: on every tree without more children at a gate than the field has nonzero indices,
  recombination does not panic, leaves the path buffer as it found it and computes `recombined`,
  the threshold recombination of the values of the children. The early exit of the loop is invisible:
  only the first `threshold` values count.
* `recombined_eq`: on pairing values that come from shares, `recombined` is the scalar `recovered`,
  where an attribute `a` is held with the exponent `rho a`.
* `isSome_recovered` and `recovered_eq`: there is a value if and only if the held attributes satisfy
  the tree, and it is the secret times the common exponent if there is one.
-/

namespace SecureABE.Core

open Rust SecureABE.Policy Threshold Interpolation

variable {F Gₜ ε : Type} [Field F]

section Recombine

variable [DecidableEq F] [AddCommGroup Gₜ] [Module F Gₜ]

/-! ## The Lagrange coefficients -/

omit [DecidableEq F] in
theorem lagrangeTerms_eq (i : ℕ) {l : List ℕ} (hl : l.Nodup) :
    lagrangeTerms F (i + 1) (l.map (· + 1)) =
      (∏ j ∈ l.toFinset.erase i, -node F j, ∏ j ∈ l.toFinset.erase i, (node F i - node F j)) := by
  have loop : ∀ (l : List ℕ) (t : F × F), (l.map (· + 1)).foldl (fun (t : F × F) j =>
      if i + 1 = j then t else (t.1 * -indexScalar F j, t.2 * (indexScalar F (i + 1) - indexScalar F j))) t =
        (t.1 * ((l.filter (· ≠ i)).map fun j => -node F j).prod,
          t.2 * ((l.filter (· ≠ i)).map fun j => node F i - node F j).prod) := by
    intro l
    induction l with
    | nil => intro t; simp
    | cons j l ih =>
      intro t
      rw [List.map_cons, List.foldl_cons, ih]
      by_cases hj : j = i
      · simp [hj]
      · rw [if_neg (by omega), List.filter_cons_of_pos (by simpa using hj), List.map_cons,
          List.map_cons, List.prod_cons, List.prod_cons, ← mul_assoc, ← mul_assoc]
        rfl
  have hset : l.toFinset.erase i = (l.filter (· ≠ i)).toFinset := by
    ext j
    simp [and_comm]
  rw [lagrangeTerms, loop, one_mul, one_mul, hset, List.prod_toFinset _ (hl.filter _),
    List.prod_toFinset _ (hl.filter _)]

/-- The weighted sum that recombination at the positions `l` computes. -/
theorem lagrangeCombine_eq {l : List ℕ} (hl : l.Nodup) (hinj : Set.InjOn (node F) {j | j ∈ l})
    (val : ℕ → Gₜ) :
    (lagrangeCombine F (l.map fun j => (j + 1, val j)) : Outcome ε Gₜ) =
      .ok (∑ j ∈ l.toFinset, zeroWeight (node F) l.toFinset j • val j) := by
  have hindex : (l.map fun j => (j + 1, val j)).map Prod.fst = l.map (· + 1) := by simp
  have hden : ∀ j ∈ l, ∏ i ∈ l.toFinset.erase j, (node F j - node F i) ≠ 0 := fun j hj =>
    prod_sub_ne_zero (fun a ha b hb => hinj (List.mem_toFinset.1 ha) (List.mem_toFinset.1 hb))
      (List.mem_toFinset.2 hj)
  -- the loop, with the accumulator and the points still to come
  have loop : ∀ (l' : List ℕ) (acc : Gₜ), (∀ j ∈ l', j ∈ l) →
      (l'.map fun j => (j + 1, val j)).foldlM (lagrangeStep F (l.map (· + 1))) acc =
      (.ok (acc + (l'.map fun j => zeroWeight (node F) l.toFinset j • val j).sum) :
        Outcome ε Gₜ) := by
    intro l'
    induction l' with
    | nil => intro acc _; simp [pure, Except.pure]
    | cons j l' ih =>
      intro acc hsub
      have hinv : invert (∏ i ∈ l.toFinset.erase j, (node F j - node F i)) =
          some (∏ i ∈ l.toFinset.erase j, (node F j - node F i))⁻¹ := if_neg (hden j (hsub j (by simp)))
      rw [List.map_cons, List.foldlM_cons]
      simp only [lagrangeStep, lagrangeTerms_eq j hl, hinv, Outcome.expect_some]
      change List.foldlM _ (acc + zeroWeight (node F) l.toFinset j • val j) _ = _
      rw [ih _ fun i hi => hsub i (by simp [hi]), List.map_cons, List.sum_cons, add_assoc]
  rw [lagrangeCombine, hindex, loop l 0 fun _ h => h, zero_add, List.sum_toFinset _ hl]

/-! ## The loop over the children -/

mutual

/-- The value that recombination returns. -/
def recombined (F : Type) [Field F] [Module F Gₜ] :
    AccessTree → LeafResult Gₜ → List ℕ → Option Gₜ
  | .leaf _, leafResults, path => leafResults.lookup path
  | .gate threshold children, leafResults, path =>
    combine (node F) threshold (recombinedOf F children leafResults 0 path)

/-- The values of the children of a gate from the index `i` on. -/
def recombinedOf (F : Type) [Field F] [Module F Gₜ] :
    List AccessTree → LeafResult Gₜ → ℕ → List ℕ → List (Option Gₜ)
  | [], _, _, _ => []
  | c :: cs, leafResults, i, path =>
    recombined F c leafResults (path ++ [i + 1]) :: recombinedOf F cs leafResults (i + 1) path

end

omit [DecidableEq F] in
theorem length_recombinedOf (cs : List AccessTree) (lr : LeafResult Gₜ) (i : ℕ) (path : List ℕ) :
    (recombinedOf F cs lr i path).length = cs.length := by
  induction cs generalizing i with
  | nil => rfl
  | cons c cs ih => rw [recombinedOf, List.length_cons, ih, List.length_cons]

/-- The held values with their indices, the first value having the index `i + 1`. -/
def heldPoints : ℕ → List (Option Gₜ) → List (ℕ × Gₜ)
  | _, [] => []
  | i, none :: vals => heldPoints (i + 1) vals
  | i, some v :: vals => (i + 1, v) :: heldPoints (i + 1) vals

omit [Field F] [DecidableEq F] [Module F Gₜ] in
theorem heldPoints_eq (i : ℕ) (vals : List (Option Gₜ)) :
    heldPoints i vals =
      (heldIndices vals).map fun j => (i + j + 1, (valueAt vals j).getD 0) := by
  induction vals generalizing i with
  | nil => rfl
  | cons v vals ih =>
    rw [heldIndices_cons]
    cases v with
    | none => simp [heldPoints, ih, Nat.add_assoc, Nat.add_comm 1]
    | some v => simp [heldPoints, ih, Nat.add_assoc, Nat.add_comm 1]

omit [Field F] [DecidableEq F] [AddCommGroup Gₜ] [Module F Gₜ] in
theorem heldPoints_cons (i : ℕ) (v : Option Gₜ) (vals : List (Option Gₜ)) :
    heldPoints i (v :: vals) = heldPoints i [v] ++ heldPoints (i + 1) vals := by
  cases v <;> rfl

/-- One iteration of the loop, on a child with the value `v`. -/
theorem recombineChildren_cons {c : AccessTree} {lr : LeafResult Gₜ} {i : ℕ} {path : List ℕ}
    {v : Option Gₜ}
    (h : (recombine F c lr (path ++ [i + 1]) : Outcome ε _) = .ok (v, path ++ [i + 1]))
    (cs : List AccessTree) (k : ℕ) (satisfied : List (ℕ × Gₜ)) :
    (recombineChildren F (c :: cs) k lr i path satisfied : Outcome ε _) =
      if k ≤ (satisfied ++ heldPoints i [v]).length then .ok (satisfied ++ heldPoints i [v], path)
      else recombineChildren F cs k lr (i + 1) path (satisfied ++ heldPoints i [v]) := by
  simp only [recombineChildren, h, bind, Except.bind, List.dropLast_concat]
  cases v <;> simp [heldPoints]

/-- **Recombination in closed form**, at any tree and with any pairing values. -/
theorem recombine_eq {n : ℕ} (hF : IndicesDistinct F n) {t : AccessTree} (ht : t.ChildrenLt n)
    (lr : LeafResult Gₜ) (path : List ℕ) :
    (recombine F t lr path : Outcome ε _) = .ok (recombined F t lr path, path) := by
  induction t using AccessTree.induct generalizing path with
  | leaf attr => rfl
  | gate k cs ih =>
    obtain ⟨hlen, hcs⟩ := AccessTree.childrenLt_gate.1 ht
    -- the loop leaves a list of points with the right first `k` elements
    have loop : ∀ (i : ℕ) (satisfied : List (ℕ × Gₜ)), ∃ satisfied',
        (recombineChildren F cs k lr i path satisfied : Outcome ε _) = .ok (satisfied', path) ∧
        satisfied'.take k = (satisfied ++ heldPoints i (recombinedOf F cs lr i path)).take k ∧
        (satisfied'.length < k ↔
          (satisfied ++ heldPoints i (recombinedOf F cs lr i path)).length < k) := by
      clear hlen ht
      induction cs with
      | nil =>
        intro i satisfied
        exact ⟨satisfied, rfl, by simp [recombinedOf, heldPoints], by simp [recombinedOf, heldPoints]⟩
      | cons c cs ihcs =>
        intro i satisfied
        rw [recombineChildren_cons (ih c (by simp) (hcs c (by simp)) _), recombinedOf,
          heldPoints_cons i _ (recombinedOf F cs lr (i + 1) path), ← List.append_assoc]
        generalize satisfied ++ heldPoints i [recombined F c lr (path ++ [i + 1])] = found
        by_cases hk : k ≤ found.length
        · refine ⟨found, if_pos hk, ?_, ?_⟩
          · rw [List.take_append_of_le_length hk]
          · rw [List.length_append]
            omega
        · rw [if_neg hk]
          exact ihcs (fun d hd => ih d (by simp [hd])) (fun d hd => hcs d (by simp [hd])) (i + 1) found
    obtain ⟨satisfied', h, htake, hlt⟩ := loop 0 []
    rw [List.nil_append, heldPoints_eq] at htake hlt
    rw [List.length_map] at hlt
    rw [recombine, h]
    simp only [bind, Except.bind, recombined]
    by_cases hk : (heldIndices (recombinedOf F cs lr 0 path)).length < k
    · rw [if_pos (hlt.2 hk), combine, if_pos hk]
    · have hinj : Set.InjOn (node F)
          {j | j ∈ (heldIndices (recombinedOf F cs lr 0 path)).take k} := by
        refine (hF.injOn_node hlen).mono fun j hj => Set.mem_Iio.2 ?_
        rw [← length_recombinedOf (F := F) cs lr 0 path]
        exact (mem_heldIndices (List.mem_of_mem_take hj)).1
      rw [if_neg (fun h => hk (hlt.1 h)), htake, ← List.map_take]
      simp only [Nat.zero_add]
      rw [lagrangeCombine_eq ((nodup_heldIndices _).sublist (List.take_sublist k _)) hinj, combine,
        if_neg hk]
      rfl

end Recombine

/-! ## Recombining shares -/

mutual

/-- The scalar that recombination recovers from the shares of a tree, the share of an attribute held
with the exponent `rho attr` being multiplied by it. -/
def recovered (rho : String → Option F) : AccessTree → F → Rng F → Option F
  | .leaf attr, secret, _ => (rho attr).map (· * secret)
  | .gate threshold children, secret, rng =>
    combine (node F) threshold
      (recoveredOf rho children (gateShare threshold secret rng) 0 (rng.drop (threshold - 1)))

/-- The scalars of the children of a gate from the index `i` on. -/
def recoveredOf (rho : String → Option F) :
    List AccessTree → (ℕ → F) → ℕ → Rng F → List (Option F)
  | [], _, _, _ => []
  | c :: cs, q, i, rng =>
    recovered rho c (q (i + 1)) rng :: recoveredOf rho cs q (i + 1) (rng.drop (coeffCount c))

end

variable {rho : String → Option F}

variable (rho) in
theorem length_recoveredOf (cs : List AccessTree) (q : ℕ → F) (i : ℕ) (rng : Rng F) :
    (recoveredOf rho cs q i rng).length = cs.length := by
  induction cs generalizing i rng with
  | nil => rfl
  | cons c cs ih => rw [recoveredOf, List.length_cons, ih, List.length_cons]

theorem valueAt_recoveredOf {cs : List AccessTree} {j : ℕ} {c : AccessTree} (hj : cs[j]? = some c)
    (q : ℕ → F) (i : ℕ) (rng : Rng F) :
    valueAt (recoveredOf rho cs q i rng) j =
      recovered rho c (q (i + j + 1)) (rng.drop (childOffset cs j)) := by
  induction cs generalizing i j rng with
  | nil => simp at hj
  | cons d cs ih =>
    cases j with
    | zero =>
      obtain rfl : d = c := by simpa using hj
      simp [recoveredOf, childOffset, coeffCountOf]
    | succ j =>
      rw [recoveredOf, valueAt_cons_succ, ih (by simpa using hj), Rng.drop_drop, Nat.add_assoc i 1 j,
        Nat.add_comm 1 j]
      rfl

/-- The values of the children of a gate. -/
theorem valueAt_recoveredOf_gate {cs : List AccessTree} {j : ℕ} {c : AccessTree}
    (hj : cs[j]? = some c) (k : ℕ) (s : F) (rng : Rng F) :
    valueAt (recoveredOf rho cs (gateShare k s rng) 0 (rng.drop (k - 1))) j =
      recovered rho c (gateShare k s rng (j + 1)) (rng.drop (k - 1 + childOffset cs j)) := by
  rw [valueAt_recoveredOf hj, Rng.drop_drop, Nat.zero_add]

/-- The recombined scalar depends on the coefficients of the tree only. -/
theorem recovered_congr {t : AccessTree} {rng rng' : Rng F}
    (h : ∀ n < coeffCount t, rng n = rng' n) (s : F) :
    recovered rho t s rng = recovered rho t s rng' := by
  induction t using AccessTree.induct generalizing s rng rng' with
  | leaf attr => rfl
  | gate k cs ih =>
    have hq : gateShare k s rng = gateShare k s rng' :=
      gateShare_congr (fun n hn => h n (by rw [coeffCount]; omega)) s
    have loop : ∀ (q : ℕ → F) (i : ℕ) (rng rng' : Rng F),
        (∀ n < coeffCountOf cs, rng n = rng' n) →
          recoveredOf rho cs q i rng = recoveredOf rho cs q i rng' := by
      clear h hq
      induction cs with
      | nil => intros; rfl
      | cons c cs ihcs =>
        intro q i rng rng' h
        unfold coeffCountOf at h
        rw [recoveredOf, recoveredOf, ih c (by simp) fun n hn => h n (by omega),
          ihcs (fun d hd => ih d (by simp [hd])) q (i + 1) (rng.drop _) (rng'.drop _) fun n hn => ?_]
        exact h _ (by omega)
    unfold recovered
    rw [hq]
    exact congrArg _ (loop _ _ _ _ fun n hn => h _ (by rw [coeffCount]; omega))

/-- **There is a value if and only if the held attributes satisfy the tree**, at any thresholds. -/
theorem isSome_recovered {H : List String} (hH : ∀ a, (rho a).isSome = decide (a ∈ H))
    (t : AccessTree) (s : F) (rng : Rng F) :
    (recovered rho t s rng).isSome = t.isSatisfiedBy H := by
  induction t using AccessTree.induct generalizing s rng with
  | leaf a => rw [recovered, Option.isSome_map, hH, AccessTree.isSatisfiedBy_leaf]
  | gate k cs ih =>
    have hcount : ∀ (q : ℕ → F) (i : ℕ) (rng : Rng F),
        (recoveredOf rho cs q i rng).countP Option.isSome =
          cs.countP (·.isSatisfiedBy H) := by
      induction cs with
      | nil => intros; rfl
      | cons c cs ihcs =>
        intro q i rng
        rw [recoveredOf, List.countP_cons, ihcs (fun d hd => ih d (by simp [hd])), ih c (by simp),
          List.countP_cons]
    rw [recovered, isSome_combine, hcount, AccessTree.isSatisfiedBy_gate]

/-- **Recombination inverts sharing** when all held attributes have the exponent `r`. -/
theorem recovered_eq {n : ℕ} (hF : IndicesDistinct F n) {H : List String} {r : F}
    (hrho : ∀ a, rho a = if a ∈ H then some r else none) {t : AccessTree} (hpos : t.Positive)
    (ht : t.ChildrenLt n) (s : F) (rng : Rng F) :
    recovered rho t s rng = if t.isSatisfiedBy H then some (r * s) else none := by
  have hH : ∀ a, (rho a).isSome = decide (a ∈ H) := fun a => by
    rw [hrho]
    by_cases ha : a ∈ H <;> simp [ha]
  induction t using AccessTree.induct generalizing s rng with
  | leaf a =>
    rw [recovered, hrho, AccessTree.isSatisfiedBy_leaf]
    by_cases ha : a ∈ H <;> simp [ha]
  | gate k cs ih =>
    obtain ⟨hk, hposc⟩ := AccessTree.positive_gate.1 hpos
    obtain ⟨hlen, hcs⟩ := AccessTree.childrenLt_gate.1 ht
    have hdeg : (sharePoly (k - 1) s rng).natDegree < k := by
      have := natDegree_sharePoly_le (k - 1) s rng
      omega
    have hval : ∀ j < (recoveredOf rho cs (gateShare k s rng) 0 (rng.drop (k - 1))).length, ∀ v,
        valueAt (recoveredOf rho cs (gateShare k s rng) 0 (rng.drop (k - 1))) j = some v →
          v = (sharePoly (k - 1) s rng).eval (node F j) • r := by
      intro j hj v hv
      rw [length_recoveredOf] at hj
      have hc : cs[j]? = some cs[j] := List.getElem?_eq_getElem hj
      have hmem : cs[j] ∈ cs := List.getElem_mem hj
      rw [valueAt_recoveredOf_gate hc, ih _ hmem (hposc _ hmem) (hcs _ hmem)] at hv
      split_ifs at hv
      obtain rfl := Option.some.inj hv
      unfold node indexScalar
      rw [eval_sharePoly_index, smul_eq_mul, mul_comm]
    have hinj := hF.injOn_node hlen
    rw [← length_recoveredOf rho cs (gateShare k s rng) 0 (rng.drop (k - 1))] at hinj
    have hsome := isSome_recovered hH (.gate k cs) s rng
    rw [recovered, isSome_combine] at hsome
    rw [recovered, combine_eval hinj hdeg r hval, eval_zero_sharePoly, smul_eq_mul, mul_comm s r,
      ← hsome]
    simp

/-! ## From pairing values to scalars -/

variable [AddCommGroup Gₜ] [Module F Gₜ]

/-- The pairing values of shares: the one of a held attribute is its exponent times the share. -/
def Agrees (lr : LeafResult Gₜ) (rho : String → Option F) (e : Gₜ) (shares : List (Share F)) :
    Prop :=
  ∀ sh ∈ shares, lr.lookup sh.path = (rho sh.attr).map fun r => (r * sh.lambda) • e

/-- **Recombination of pairing values is recombination of scalars.** -/
theorem recombined_eq {lr : LeafResult Gₜ} {e : Gₜ} {t : AccessTree} {s : F} {rng : Rng F}
    {path : List ℕ} (h : Agrees lr rho e (sharesAt t s rng path)) :
    recombined F t lr path = (recovered rho t s rng).map (· • e) := by
  induction t using AccessTree.induct generalizing s rng path with
  | leaf a =>
    unfold recombined recovered
    rw [h ⟨path, a, s⟩ (by simp [sharesAt]), Option.map_map]
    rfl
  | gate k cs ih =>
    have loop : ∀ (q : ℕ → F) (i : ℕ) (rng : Rng F),
        Agrees lr rho e (sharesOf cs q i rng path) → recombinedOf F cs lr i path =
          (recoveredOf rho cs q i rng).map (Option.map (LinearMap.toSpanSingleton F Gₜ e)) := by
      clear h
      induction cs with
      | nil => intros; rfl
      | cons c cs ihcs =>
        intro q i rng h
        unfold sharesOf at h
        rw [recombinedOf, recoveredOf, List.map_cons,
          ih c (by simp) fun sh hsh => h sh (List.mem_append_left _ hsh),
          ihcs (fun d hd => ih d (by simp [hd])) q (i + 1) (rng.drop (coeffCount c))
            fun sh hsh => h sh (List.mem_append_right _ hsh)]
        rfl
    unfold sharesAt at h
    rw [recombined, loop _ _ _ h, combine_map, recovered]
    rfl

end SecureABE.Core
