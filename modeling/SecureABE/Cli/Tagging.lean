import SecureABE.Policy.Serde
import SecureABE.Revocation.List

/-!
# Tags

Attributes reach the scheme with a tag, the epoch of the attribute on the revocation list. A key and
a ciphertext carry the tags of the lists at the time they were made, and the scheme compares tags. A tag
determines its attribute and its epoch (`tag_eq_tag`).

`retagTree_epoch_filter`: what a key satisfies of a tagged policy is what its attributes with unchanged
epochs satisfy of the policy itself.
-/

namespace SecureABE.Cli

open Rust SecureABE.Policy SecureABE.Revocation

/-! ## Tagged policies -/

mutual

/-- Tags the leaves of a tree. -/
def retagTree : AccessTree → RevocationList → AccessTree
  | .leaf a, revocation => .leaf (revocation.tag a)
  | .gate threshold children, revocation => .gate threshold (retagTrees children revocation)

/-- `children.iter().map(|c| retag_tree(c, revocation)).collect()`. -/
def retagTrees : List AccessTree → RevocationList → List AccessTree
  | [], _ => []
  | c :: cs, revocation => retagTree c revocation :: retagTrees cs revocation

end

@[simp] theorem retagTree_leaf (a : String) (rl : RevocationList) :
    retagTree (.leaf a) rl = .leaf (rl.tag a) := rfl

@[simp] theorem retagTree_gate (k : ℕ) (cs : List AccessTree) (rl : RevocationList) :
    retagTree (.gate k cs) rl = .gate k (cs.map (retagTree · rl)) := by
  rw [retagTree]
  congr 1
  induction cs with
  | nil => rfl
  | cons c cs ih => rw [retagTrees, ih, List.map_cons]

theorem leaves_retagTree (t : AccessTree) (rl : RevocationList) :
    (retagTree t rl).leaves = t.leaves.map rl.tag := by
  induction t using AccessTree.induct with
  | leaf a => rfl
  | gate k cs ih =>
    rw [retagTree_gate, AccessTree.leaves_gate, AccessTree.leaves_gate, List.flatMap_map,
      List.map_flatMap]
    exact List.flatMap_congr fun c hc => ih c hc

theorem gates_retagTree (t : AccessTree) (rl : RevocationList) :
    (retagTree t rl).gates = t.gates := by
  induction t using AccessTree.induct with
  | leaf a => rfl
  | gate k cs ih =>
    rw [retagTree_gate, AccessTree.gates_gate, AccessTree.gates_gate, List.flatMap_map,
      List.length_map]
    congr 1
    exact List.flatMap_congr fun c hc => ih c hc

theorem gateDepth_retagTree (t : AccessTree) (rl : RevocationList) :
    (retagTree t rl).gateDepth = t.gateDepth := by
  induction t using AccessTree.induct with
  | leaf a => rfl
  | gate k cs ih =>
    rw [retagTree_gate, AccessTree.gateDepth, AccessTree.gateDepth]
    congr 1
    induction cs with
    | nil => rfl
    | cons c cs ihcs =>
      rw [List.map_cons, AccessTree.gateDepthOf, AccessTree.gateDepthOf, ih c (by simp),
        ihcs fun d hd => ih d (by simp [hd])]

/-! ## What a tag says -/

/-- An attribute of a list carries the tag of `a` exactly if it is `a` and its epochs agree. -/
theorem tag_mem_map_tag {rl rl' : RevocationList} {a : String} {A : List String} :
    rl'.tag a ∈ A.map rl.tag ↔ a ∈ A.filter fun b => rl.currentEpoch b = rl'.currentEpoch b := by
  simp only [List.mem_map, List.mem_filter, decide_eq_true_eq, tag_eq_tag]
  constructor
  · rintro ⟨b, hb, rfl, hepoch⟩
    exact ⟨hb, hepoch⟩
  · rintro ⟨ha, hepoch⟩
    exact ⟨a, ha, rfl, hepoch⟩

/-- Satisfaction of a tagged tree by tagged attributes, leaf by leaf. -/
theorem isSatisfiedBy_retagTree_of_mem {rl : RevocationList} {A B : List String}
    (h : ∀ a, rl.tag a ∈ A ↔ a ∈ B) (t : AccessTree) :
    (retagTree t rl).isSatisfiedBy A = t.isSatisfiedBy B := by
  induction t using AccessTree.induct with
  | leaf a => simp only [retagTree_leaf, AccessTree.isSatisfiedBy_leaf, h]
  | gate k cs ih =>
    rw [retagTree_gate, AccessTree.isSatisfiedBy_gate, AccessTree.isSatisfiedBy_gate,
      List.countP_map]
    congr 2
    apply List.countP_congr
    intro c hc
    rw [Function.comp_apply, ih c hc]

/-- A tagged tree is satisfied through the tags of attributes that satisfy the tree. -/
theorem exists_satisfied_of_retagTree {rl : RevocationList} {A : List String} {t : AccessTree}
    (h : (retagTree t rl).isSatisfiedBy A = true) :
    ∃ B : List String, t.isSatisfiedBy B = true ∧ ∀ a ∈ B, rl.tag a ∈ A := by
  refine ⟨t.leaves.filter fun a => rl.tag a ∈ A, ?_, fun a ha => by simpa using (List.mem_filter.1 ha).2⟩
  have hmem : ∀ a, rl.tag a ∈ (t.leaves.filter fun a => rl.tag a ∈ A).map rl.tag ↔
      a ∈ t.leaves.filter fun a => rl.tag a ∈ A := by
    intro a
    rw [tag_mem_map_tag]
    simp
  rw [← isSatisfiedBy_retagTree_of_mem hmem, ← h]
  apply AccessTree.isSatisfiedBy_congr_leaves
  intro tag htag
  rw [leaves_retagTree, List.mem_map] at htag
  obtain ⟨a, ha, rfl⟩ := htag
  rw [hmem, List.mem_filter, decide_eq_true_eq]
  exact and_iff_right ha

/-- **Tagging is a filter by epoch**: with the attributes tagged under one list and the tree under
another, the attributes count whose epochs agree. Under one list tagging changes nothing, and no
attribute can carry the tag of another. -/
theorem retagTree_epoch_filter (rev1 rev2 : RevocationList) :
    (∀ (t : AccessTree) (A : List String),
      (retagTree t rev2).isSatisfiedBy (A.map rev1.tag) =
        t.isSatisfiedBy (A.filter fun a => rev1.currentEpoch a = rev2.currentEpoch a)) ∧
    (∀ (t : AccessTree) (A : List String),
      (retagTree t rev1).isSatisfiedBy (A.map rev1.tag) = t.isSatisfiedBy A) ∧
    ∀ a b, rev1.tag a = rev2.tag b ↔ a = b ∧ rev1.currentEpoch a = rev2.currentEpoch b := by
  refine ⟨fun t A => ?_, fun t A => ?_, fun a b => tag_eq_tag⟩
  · exact isSatisfiedBy_retagTree_of_mem (fun a => tag_mem_map_tag) t
  · refine isSatisfiedBy_retagTree_of_mem (fun a => ?_) t
    rw [tag_mem_map_tag, List.mem_filter]
    simp

end SecureABE.Cli
