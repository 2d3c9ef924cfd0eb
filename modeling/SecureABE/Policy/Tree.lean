import Mathlib.Data.List.Count
import Mathlib.Tactic.Linarith

/-!
# Access trees

`policy/src/tree.rs`: the monotone access structures, as threshold trees, and the check of an
attribute set against them. The two loops over the children of a gate are the companion functions
`countSatisfied` and `leavesOf`; `isSatisfiedBy_gate` and `leaves_gate` put them back in the form of
the source's iterator chains.

Besides the functions of the source, `gates` lists the threshold and the number of children of every
gate of a tree. The side conditions of the results on trees are read off this list: all thresholds
at least one (`Positive`), no gate with more children than an index can count (`ChildrenLt`).
-/

namespace SecureABE.Policy

/-- A monotone access structure. A leaf requires the named attribute, a gate at least `threshold` of
its `children`. -/
inductive AccessTree
  | leaf (attr : String)
  | gate (threshold : ℕ) (children : List AccessTree)
  deriving Repr, Inhabited

namespace AccessTree

/-- Induction on access trees, over all children of a gate at once. -/
@[elab_as_elim]
theorem induct {p : AccessTree → Prop} (leaf : ∀ attr, p (.leaf attr))
    (gate : ∀ threshold children, (∀ c ∈ children, p c) → p (.gate threshold children))
    (t : AccessTree) : p t :=
  @AccessTree.rec p (fun cs => ∀ c ∈ cs, p c) leaf gate
    (fun _c hc => absurd hc List.not_mem_nil)
    (fun _c _cs hc hcs d hd => (List.mem_cons.1 hd).elim (fun h => h ▸ hc) (hcs d)) t

/-! ## Constructors -/

def and (children : List AccessTree) : AccessTree := .gate children.length children

def or (children : List AccessTree) : AccessTree := .gate 1 children

def threshold (k : ℕ) (children : List AccessTree) : AccessTree := .gate k children

/-! ## Satisfaction -/

mutual

/-- True if the given attribute set can satisfy this tree. -/
def isSatisfiedBy : AccessTree → List String → Bool
  | .leaf a, attrs => attrs.any (· == a)
  | .gate threshold children, attrs => decide (threshold ≤ countSatisfied children attrs)

/-- `children.iter().filter(|c| c.is_satisfied_by(attrs)).count()`. -/
def countSatisfied : List AccessTree → List String → ℕ
  | [], _ => 0
  | c :: cs, attrs => (if c.isSatisfiedBy attrs then 1 else 0) + countSatisfied cs attrs

end

theorem countSatisfied_eq (cs : List AccessTree) (attrs : List String) :
    countSatisfied cs attrs = cs.countP (·.isSatisfiedBy attrs) := by
  induction cs with
  | nil => rfl
  | cons c cs ih => rw [countSatisfied, ih, List.countP_cons, Nat.add_comm]

@[simp] theorem isSatisfiedBy_leaf (a : String) (attrs : List String) :
    (leaf a).isSatisfiedBy attrs = decide (a ∈ attrs) := by
  simp [isSatisfiedBy, List.any_eq]

theorem isSatisfiedBy_gate (k : ℕ) (cs : List AccessTree) (attrs : List String) :
    (gate k cs).isSatisfiedBy attrs = decide (k ≤ cs.countP (·.isSatisfiedBy attrs)) := by
  rw [isSatisfiedBy, countSatisfied_eq]

/-- Satisfaction depends on an attribute list through its elements only, and grows with it. -/
theorem isSatisfiedBy_mono {A B : List String} (h : ∀ a ∈ A, a ∈ B) (t : AccessTree) :
    t.isSatisfiedBy A = true → t.isSatisfiedBy B = true := by
  induction t using induct with
  | leaf a => simpa using h a
  | gate k cs ih =>
    simp only [isSatisfiedBy_gate, decide_eq_true_eq]
    exact fun hk => hk.trans (List.countP_mono_left ih)

theorem isSatisfiedBy_congr {A B : List String} (h : ∀ a, a ∈ A ↔ a ∈ B) (t : AccessTree) :
    t.isSatisfiedBy A = t.isSatisfiedBy B :=
  Bool.eq_iff_iff.2 ⟨isSatisfiedBy_mono (fun a => (h a).1) t, isSatisfiedBy_mono (fun a => (h a).2) t⟩

/-! ## Leaves -/

mutual

/-- The attributes at the leaves, from left to right. -/
def leaves : AccessTree → List String
  | .leaf a => [a]
  | .gate _ children => leavesOf children

/-- `children.iter().flat_map(|c| c.leaves()).collect()`. -/
def leavesOf : List AccessTree → List String
  | [] => []
  | c :: cs => c.leaves ++ leavesOf cs

end

@[simp] theorem leaves_leaf (a : String) : (leaf a).leaves = [a] := rfl

@[simp] theorem leaves_gate (k : ℕ) (cs : List AccessTree) :
    (gate k cs).leaves = cs.flatMap leaves := by
  unfold leaves
  induction cs with
  | nil => rfl
  | cons c cs ih => rw [leavesOf, ih, List.flatMap_cons]

/-- Only the attributes at the leaves of a tree matter to it. -/
theorem isSatisfiedBy_congr_leaves {A B : List String} (t : AccessTree)
    (h : ∀ a ∈ t.leaves, a ∈ A ↔ a ∈ B) : t.isSatisfiedBy A = t.isSatisfiedBy B := by
  induction t using induct with
  | leaf a => simp only [isSatisfiedBy_leaf, h a (by simp)]
  | gate k cs ih =>
    rw [isSatisfiedBy_gate, isSatisfiedBy_gate]
    congr 2
    apply List.countP_congr
    intro c hc
    rw [ih c hc fun a ha => h a (by simpa using ⟨c, hc, ha⟩)]

/-! ## Gates -/

mutual

/-- The threshold and the number of children of every gate. -/
def gates : AccessTree → List (ℕ × ℕ)
  | .leaf _ => []
  | .gate threshold children => (threshold, children.length) :: gatesOf children

/-- The gates of the trees of a list. -/
def gatesOf : List AccessTree → List (ℕ × ℕ)
  | [] => []
  | c :: cs => c.gates ++ gatesOf cs

end

@[simp] theorem gates_leaf (a : String) : (leaf a).gates = [] := rfl

@[simp] theorem gates_gate (k : ℕ) (cs : List AccessTree) :
    (gate k cs).gates = (k, cs.length) :: cs.flatMap gates := by
  unfold gates
  congr 1
  induction cs with
  | nil => rfl
  | cons c cs ih => rw [gatesOf, ih, List.flatMap_cons]

/-- Every gate has a threshold of at least one. -/
def Positive (t : AccessTree) : Prop := ∀ g ∈ t.gates, 1 ≤ g.1

/-- Every gate has fewer than `n` children. -/
def ChildrenLt (n : ℕ) (t : AccessTree) : Prop := ∀ g ∈ t.gates, g.2 < n

instance (t : AccessTree) : Decidable t.Positive := inferInstanceAs (Decidable (∀ g ∈ _, _))

instance (n : ℕ) (t : AccessTree) : Decidable (t.ChildrenLt n) :=
  inferInstanceAs (Decidable (∀ g ∈ _, _))

theorem positive_gate {k : ℕ} {cs : List AccessTree} :
    (gate k cs).Positive ↔ 1 ≤ k ∧ ∀ c ∈ cs, c.Positive := by
  simp only [Positive, gates_gate, List.forall_mem_cons, List.mem_flatMap]
  exact and_congr_right fun _ => ⟨fun h c hc g hg => h g ⟨c, hc, hg⟩, fun h g ⟨c, hc, hg⟩ => h c hc g hg⟩

/-- Nothing satisfies no tree with thresholds of at least one. -/
theorem not_isSatisfiedBy_nil {t : AccessTree} (h : t.Positive) : t.isSatisfiedBy [] = false := by
  induction t using induct with
  | leaf a => simp
  | gate k cs ih =>
    obtain ⟨hk, hcs⟩ := positive_gate.1 h
    have hnone : cs.countP (·.isSatisfiedBy []) = 0 :=
      List.countP_eq_zero.2 fun c hc => by simp [ih c hc (hcs c hc)]
    rw [isSatisfiedBy_gate, hnone, decide_eq_false_iff_not]
    omega

theorem childrenLt_gate {n k : ℕ} {cs : List AccessTree} :
    (gate k cs).ChildrenLt n ↔ cs.length < n ∧ ∀ c ∈ cs, c.ChildrenLt n := by
  simp only [ChildrenLt, gates_gate, List.forall_mem_cons, List.mem_flatMap]
  exact and_congr_right fun _ => ⟨fun h c hc g hg => h g ⟨c, hc, hg⟩, fun h g ⟨c, hc, hg⟩ => h c hc g hg⟩

theorem ChildrenLt.mono {m n : ℕ} (h : m ≤ n) {t : AccessTree} (ht : t.ChildrenLt m) :
    t.ChildrenLt n := fun g hg => (ht g hg).trans_le h

end AccessTree

end SecureABE.Policy
