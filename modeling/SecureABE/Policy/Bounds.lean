import SecureABE.Policy.Parsing
import SecureABE.Policy.Serde

/-!
# The gates of a parsed policy

A parsed policy has no degenerate gate: every threshold lies between one and the number of children,
and there are no more children than the text has characters (`parse_fits`). So the trees that come
from texts meet the side conditions of the scheme and of the JSON encoding.
-/

namespace SecureABE.Policy

namespace AccessTree

/-- Every gate has a threshold that can be reached, and at most `n` children. -/
def Fits (n : ℕ) (t : AccessTree) : Prop := ∀ g ∈ t.gates, 1 ≤ g.1 ∧ g.1 ≤ g.2 ∧ g.2 ≤ n

theorem fits_leaf (n : ℕ) (a : String) : (leaf a).Fits n := by
  intro g hg
  simp at hg

theorem fits_gate {n k : ℕ} {cs : List AccessTree} :
    (gate k cs).Fits n ↔ (1 ≤ k ∧ k ≤ cs.length ∧ cs.length ≤ n) ∧ ∀ c ∈ cs, c.Fits n := by
  unfold Fits
  rw [gates_gate, List.forall_mem_cons]
  apply and_congr_right
  intro _
  constructor
  · intro h c hc g hg
    exact h g (List.mem_flatMap.2 ⟨c, hc, hg⟩)
  · intro h g hg
    obtain ⟨c, hc, hg⟩ := List.mem_flatMap.1 hg
    exact h c hc g hg

theorem Fits.positive {n : ℕ} {t : AccessTree} (h : t.Fits n) : t.Positive := fun g hg => (h g hg).1

theorem Fits.childrenLt {m n : ℕ} {t : AccessTree} (h : t.Fits n) (hn : n < m) : t.ChildrenLt m :=
  fun g hg => lt_of_le_of_lt (h g hg).2.2 hn

theorem Fits.thresholdsFit {n : ℕ} {t : AccessTree} (h : t.Fits n) (hn : n < 2 ^ 64) :
    t.ThresholdsFit := by
  intro g hg
  have := h g hg
  omega

theorem Fits.of_gates_eq {n : ℕ} {t t' : AccessTree} (h : t.Fits n) (hg : t'.gates = t.gates) :
    t'.Fits n := by
  unfold Fits
  rw [hg]
  exact h

end AccessTree

/-! ## Derivations -/

theorem Atom.length_tokens_pos (a : Atom) : 1 ≤ a.tokens.length := by
  cases a with
  | paren inner => simp [Atom.tokens]
  | attr word => simp [Atom.tokens]

theorem AndExpr.length_tokens_pos (e : AndExpr) : 1 ≤ e.tokens.length := by
  obtain ⟨first, rest⟩ := e
  have := first.length_tokens_pos
  rw [AndExpr.tokens, List.length_append]
  omega

theorem length_andTrees_le (es : List AndExpr) : (andTrees es).length ≤ (orTokens es).length := by
  induction es with
  | nil => exact le_rfl
  | cons e es ih =>
    unfold andTrees orTokens
    rw [List.length_cons, List.length_cons, List.length_append]
    omega

theorem length_atomTrees_le (as : List Atom) : (atomTrees as).length ≤ (andTokens as).length := by
  induction as with
  | nil => exact le_rfl
  | cons a as ih =>
    unfold atomTrees andTokens
    rw [List.length_cons, List.length_cons, List.length_append]
    omega

mutual

theorem OrExpr.fits_tree {n : ℕ} : ∀ e : OrExpr, e.tokens.length ≤ n → e.tree.Fits n
  | .chain first [], h => by
    rw [OrExpr.tokens, List.length_append] at h
    unfold OrExpr.tree
    exact AndExpr.fits_tree first (by omega)
  | .chain first (e :: es), h => by
    rw [OrExpr.tokens, List.length_append] at h
    have hfirst := first.length_tokens_pos
    have hlen := length_andTrees_le (e :: es)
    rw [OrExpr.tree, ← andTrees, AccessTree.fits_gate, List.length_cons]
    refine ⟨⟨le_rfl, by omega, by omega⟩, ?_⟩
    intro c hc
    rcases List.mem_cons.1 hc with rfl | hc
    · exact AndExpr.fits_tree first (by omega)
    · exact fits_andTrees (e :: es) (by omega) c hc

theorem fits_andTrees {n : ℕ} : ∀ es : List AndExpr, (orTokens es).length ≤ n →
    ∀ c ∈ andTrees es, c.Fits n
  | [], _ => by simp [andTrees]
  | e :: es, h => by
    rw [orTokens, List.length_cons, List.length_append] at h
    intro c hc
    unfold andTrees at hc
    rcases List.mem_cons.1 hc with rfl | hc
    · exact AndExpr.fits_tree e (by omega)
    · exact fits_andTrees es (by omega) c hc

theorem AndExpr.fits_tree {n : ℕ} : ∀ e : AndExpr, e.tokens.length ≤ n → e.tree.Fits n
  | .chain first [], h => by
    rw [AndExpr.tokens, List.length_append] at h
    unfold AndExpr.tree
    exact Atom.fits_tree first (by omega)
  | .chain first (a :: as), h => by
    rw [AndExpr.tokens, List.length_append] at h
    have hfirst := first.length_tokens_pos
    have hlen := length_atomTrees_le (a :: as)
    have hcount := length_atomTrees (a :: as)
    rw [List.length_cons] at hcount
    rw [AndExpr.tree, ← atomTrees, AccessTree.fits_gate, List.length_cons]
    refine ⟨⟨by omega, by omega, by omega⟩, ?_⟩
    intro c hc
    rcases List.mem_cons.1 hc with rfl | hc
    · exact Atom.fits_tree first (by omega)
    · exact fits_atomTrees (a :: as) (by omega) c hc

theorem fits_atomTrees {n : ℕ} : ∀ as : List Atom, (andTokens as).length ≤ n →
    ∀ c ∈ atomTrees as, c.Fits n
  | [], _ => by simp [atomTrees]
  | a :: as, h => by
    rw [andTokens, List.length_cons, List.length_append] at h
    intro c hc
    unfold atomTrees at hc
    rcases List.mem_cons.1 hc with rfl | hc
    · exact Atom.fits_tree a (by omega)
    · exact fits_atomTrees as (by omega) c hc

theorem Atom.fits_tree {n : ℕ} : ∀ a : Atom, a.tokens.length ≤ n → a.tree.Fits n
  | .paren inner, h => by
    rw [Atom.tokens, List.length_cons, List.length_append] at h
    exact OrExpr.fits_tree inner (by omega)
  | .attr word, _ => AccessTree.fits_leaf n (normalize word)

end

/-! ## Texts -/

theorem Lexes.length_le {text : List Char} {tokens : List Token} (h : Lexes text tokens) :
    tokens.length ≤ text.length := by
  induction h with
  | nil => exact le_rfl
  | space _ _ ih => exact Nat.le_succ_of_le ih
  | lParen _ ih => exact Nat.succ_le_succ ih
  | rParen _ ih => exact Nat.succ_le_succ ih
  | word hw _ _ _ ih =>
    have := List.length_pos_iff.2 hw
    rw [List.length_cons, List.length_append]
    omega

/-- **A parsed policy has no degenerate gate**, and no more children at a gate than characters. -/
theorem parse_fits {input : String} {t : AccessTree} (h : parse input = .ok t) :
    t.Fits input.length := by
  obtain ⟨e, hlex, rfl⟩ := parse_eq_ok.1 h
  apply OrExpr.fits_tree
  rw [← String.length_toList]
  exact hlex.length_le

end SecureABE.Policy
