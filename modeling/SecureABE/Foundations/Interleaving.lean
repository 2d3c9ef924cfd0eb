import SecureABE.Foundations.Program
import Mathlib.Logic.Function.Basic

/-!
# Programs that take turns

Several programs work on one state, an operation at a time. A schedule says whose turn it is at each
step; a program that has ended does nothing, and one that is not in the schedule any more is cut off.

For programs whose next operation only depends on how many they have performed (`Staged`), the schedule
alone gives what happens (`interleave_stages`): each turn is the effect of the stage that its program
has come to.
-/

namespace Rust

variable {Op : Type} {Reply : Op → Type} {S α ι : Type}

namespace Prog

section

variable (handle : (op : Op) → S → Reply op × S)

/-- One operation of a program. -/
def turn : Prog Reply α → S → Prog Reply α × S
  | .pure a, s => (.pure a, s)
  | .step op next, s => (next (handle op s).1, (handle op s).2)

variable [DecidableEq ι]

/-- What is left of the programs after the turns of a schedule, and the state. -/
def interleave : List ι → (ι → Prog Reply α) → S → (ι → Prog Reply α) × S
  | [], ps, s => (ps, s)
  | i :: sched, ps, s =>
    interleave sched (Function.update ps i ((ps i).turn handle s).1) ((ps i).turn handle s).2

end

/-! ## Stages -/

/-- The programs after each number of turns, and the effect of the next turn. -/
structure Staged (handle : (op : Op) → S → Reply op × S) (stage : ι → ℕ → Prog Reply α)
    (effect : ι → ℕ → S → S) : Prop where
  turn : ∀ i k s, (stage i k).turn handle s = (stage i (k + 1), effect i k s)

variable [DecidableEq ι]

/-- The turns of a schedule with the number of turns that the same program has had before. -/
def turns (done : ι → ℕ) : List ι → List (ι × ℕ)
  | [] => []
  | i :: sched => (i, done i) :: turns (Function.update done i (done i + 1)) sched

/-- **Interleaving programs in stages**: the effects of the turns one after another. -/
theorem interleave_stages {handle : (op : Op) → S → Reply op × S} {stage : ι → ℕ → Prog Reply α}
    {effect : ι → ℕ → S → S} (h : Staged handle stage effect) (sched : List ι) (done : ι → ℕ) (s : S) :
    interleave handle sched (fun i => stage i (done i)) s =
      (fun i => stage i (done i + sched.count i),
        (turns done sched).foldl (fun s t => effect t.1 t.2 s) s) := by
  induction sched generalizing done s with
  | nil => rfl
  | cons i sched ih =>
    have hps : Function.update (fun j => stage j (done j)) i (stage i (done i + 1)) =
        fun j => stage j (Function.update done i (done i + 1) j) := by
      funext j
      by_cases hj : j = i
      · subst hj
        rw [Function.update_self, Function.update_self]
      · rw [Function.update_of_ne hj, Function.update_of_ne hj]
    rw [interleave, h.turn, hps, ih, turns, List.foldl_cons]
    refine Prod.ext (funext fun j => ?_) rfl
    by_cases hj : j = i
    · subst hj
      have hcount : done j + 1 + sched.count j = done j + (sched.count j + 1) := by omega
      simp only [Function.update_self, List.count_cons_self, hcount]
    · simp only [Function.update_of_ne hj, List.count_cons_of_ne (Ne.symm hj)]

/-- The turns of a program are counted from those it has had on. -/
theorem mem_turns {done : ι → ℕ} {sched : List ι} {i : ι} {k : ℕ} :
    (i, k) ∈ turns done sched ↔ done i ≤ k ∧ k < done i + sched.count i := by
  induction sched generalizing done with
  | nil => simp [turns]
  | cons j sched ih =>
    rw [turns, List.mem_cons, ih, Prod.mk.injEq]
    by_cases hj : i = j
    · subst hj
      simp only [true_and, Function.update_self, List.count_cons_self]
      omega
    · rw [Function.update_of_ne hj, List.count_cons_of_ne (Ne.symm hj)]
      simp [hj]

/-- No program has the same turn twice. -/
theorem nodup_turns (done : ι → ℕ) (sched : List ι) : (turns done sched).Nodup := by
  induction sched generalizing done with
  | nil => exact List.nodup_nil
  | cons i sched ih =>
    refine List.nodup_cons.2 ⟨fun h => ?_, ih _⟩
    have hlate := (mem_turns.1 h).1
    rw [Function.update_self] at hlate
    omega

end Prog

end Rust
