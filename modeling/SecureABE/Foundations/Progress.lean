import SecureABE.Foundations.Guarantees

/-!
# What becomes of a program among others

`Guarantees` is about what a program may do to the others. Here it is about what the others leave it to do,
as long as no access of its own fails.

* `Prog.Within`: the number of operations is bounded, whatever the replies. A program that has had as many
  turns has ended.
* `Prog.Passes`: the program does not come to a value but past an operation of some kind. What the operation
  brings about, and nobody undoes, is so when the program has ended (`Passes.interleaveFaulty`).
* `Cmd.Succeeds`: the program ends with a value, whatever it reads on disks on which an invariant holds.
-/

namespace Rust

variable {Op : Type} {Reply : Op → Type} {Φ S α β ι : Type}

namespace Prog

/-! ## Bounded programs -/

/-- The program performs at most `n` operations. -/
def Within : ℕ → Prog Reply α → Prop
  | _, .pure _ => True
  | 0, .step _ _ => False
  | n + 1, .step _ next => ∀ r, (next r).Within n

theorem within_pure (n : ℕ) (a : α) : (Prog.pure a : Prog Reply α).Within n := by
  cases n <;> trivial

theorem Within.mono {p : Prog Reply α} {m n : ℕ} (h : p.Within m) (hmn : m ≤ n) : p.Within n := by
  induction p generalizing m n with
  | pure a => exact within_pure n a
  | step op next ih =>
    cases m with
    | zero => exact h.elim
    | succ m =>
      obtain ⟨n, rfl⟩ : ∃ k, n = k + 1 := ⟨n - 1, by omega⟩
      exact fun r => ih r (h r) (by omega)

theorem Within.bind {p : Prog Reply α} {f : α → Prog Reply β} {m n : ℕ} (h : p.Within m)
    (hf : ∀ a, (f a).Within n) : (p.bind f).Within (m + n) := by
  induction p generalizing m with
  | pure a => exact (hf a).mono (by omega)
  | step op next ih =>
    cases m with
    | zero => exact h.elim
    | succ m =>
      rw [Nat.succ_add]
      exact fun r => ih r (h r)

theorem Within.exists_pure {p : Prog Reply α} (h : p.Within 0) : ∃ a, p = .pure a := by
  cases p with
  | pure a => exact ⟨a, rfl⟩
  | step op next => exact h.elim

theorem Within.turn {p : Prog Reply α} {n : ℕ} (h : p.Within n) (f : (op : Op) → S → Reply op × S) (s : S) :
    (p.turn f s).1.Within (n - 1) := by
  cases p with
  | pure a => exact within_pure _ a
  | step op next =>
    cases n with
    | zero => exact h.elim
    | succ n => exact h _

/-- **A bounded program ends**, after as many turns as it has operations. -/
theorem Within.interleaveFaulty [DecidableEq ι] (device : Device Reply Φ S) (sched : List (ι × Φ))
    {ps : ι → Prog Reply α} (s : S) {i : ι} {n : ℕ} (h : (ps i).Within n) :
    ((Prog.interleaveFaulty device sched ps s).1 i).Within (n - (sched.map Prod.fst).count i) := by
  induction sched generalizing ps s n with
  | nil => exact h
  | cons t sched ih =>
    obtain ⟨j, φ⟩ := t
    rw [List.map_cons]
    by_cases hji : j = i
    · subst hji
      rw [List.count_cons_self, Nat.add_comm, ← Nat.sub_sub]
      refine ih _ ?_
      rw [Function.update_self]
      exact h.turn _ s
    · rw [List.count_cons_of_ne hji]
      refine ih _ ?_
      rwa [Function.update_of_ne (Ne.symm hji)]

/-! ## Operations on the way -/

/-- An operation of `W` comes before every value that is not in `V`. -/
def Passes (W : Op → Prop) (V : α → Prop) : Prog Reply α → Prop
  | .pure a => V a
  | .step op next => W op ∨ ∀ r, (next r).Passes W V

variable {W : Op → Prop} {V : α → Prop}

theorem Passes.bind {p : Prog Reply α} {f : α → Prog Reply β} {V' : β → Prop} (h : p.Passes W V)
    (hf : ∀ a, V a → (f a).Passes W V') : (p.bind f).Passes W V' := by
  induction p with
  | pure a => exact hf a h
  | step op next ih => exact h.imp id fun hnext r => ih r (hnext r)

theorem passes_true (p : Prog Reply α) : p.Passes W fun _ => True := by
  induction p with
  | pure a => trivial
  | step op next ih => exact Or.inr ih

section Runs

variable [DecidableEq ι] {device : Device Reply Φ S} {Faults : ι → Φ → Prop} {P : ι → Op → Prop}
  {Seen I J : S → Prop} {Q : ι → α → Prop}

/-- **What a program has passed is done**: if an operation of `W` of one program brings something about, and
no operation of anyone undoes it, then it is so, unless the program has still to pass such an operation. -/
theorem Passes.interleaveFaulty {sched : List (ι × Φ)} {ps : ι → Prog Reply α} {s : S}
    (h : ∀ j ∈ sched.map Prod.fst, (ps j).Guarantees device (Faults j) (P j) Seen I (Q j))
    (hfaults : ∀ t ∈ sched, Faults t.1 t.2) (hseen : ∀ t ∈ passed device sched ps s, Seen t) (hI : I s)
    (hkeeps : ∀ j op φ t, P j op → J t → J (device φ op t).2) {i : ι}
    (hdoes : ∀ op φ t, P i op → W op → Faults i φ → J (device φ op t).2) (hi : (ps i).Passes W V ∨ J s) :
    ((Prog.interleaveFaulty device sched ps s).1 i).Passes W V ∨
      J (Prog.interleaveFaulty device sched ps s).2 := by
  induction sched generalizing ps s with
  | nil => exact hi
  | cons t sched ih =>
    obtain ⟨k, φ⟩ := t
    obtain ⟨hs, hrest⟩ := List.forall_mem_cons.1 hseen
    obtain ⟨hφ, hlater⟩ := List.forall_mem_cons.1 hfaults
    have hk := h k (by simp)
    obtain ⟨hafter, hleft⟩ := hk.turn hφ hs hI
    have hguarantees : ∀ j ∈ sched.map Prod.fst,
        (Function.update ps k ((ps k).turn (device φ) s).1 j).Guarantees device (Faults j) (P j) Seen I
          (Q j) := by
      intro j hj
      by_cases hjk : j = k
      · subst hjk
        rwa [Function.update_self]
      · rw [Function.update_of_ne hjk]
        exact h j (by simp [hj])
    refine ih hguarantees hlater hrest hafter ?_
    -- an operation of anyone keeps what is done
    have hdone : J s → J ((ps k).turn (device φ) s).2 := by
      intro hJ
      cases hp : ps k with
      | pure a => exact hJ
      | step op next =>
        rw [hp] at hk
        exact hkeeps k op φ s hk.1 hJ
    by_cases hki : k = i
    · subst hki
      rw [Function.update_self]
      rcases hi with hpass | hJ
      · cases hp : ps k with
        | pure a =>
          rw [hp] at hpass
          exact Or.inl hpass
        | step op next =>
          rw [hp] at hpass hk
          rcases hpass with hW | hnext
          · exact Or.inr (hdoes op φ s hk.1 hW hφ)
          · exact Or.inl (hnext _)
      · exact Or.inr (hdone hJ)
    · rw [Function.update_of_ne (Ne.symm hki)]
      exact hi.imp id hdone

end Runs

end Prog

/-! ## Fallible programs -/

namespace Cmd

variable {ε ε' : Type} {m n : ℕ}

/-- The program performs at most `n` operations. -/
abbrev Within (n : ℕ) (x : Cmd Reply ε α) : Prop := Prog.Within n x

theorem within_ofOutcome (o : Outcome ε α) : Within n (ofOutcome o : Cmd Reply ε α) := Prog.within_pure n o

theorem Within.bind {x : Cmd Reply ε α} {f : α → Cmd Reply ε β} (h : Within m x) (hf : ∀ a, Within n (f a)) :
    Within (m + n) (x >>= f) :=
  Prog.Within.bind h fun o => by
    cases o with
    | ok a => exact hf a
    | error e => exact Prog.within_pure n _

theorem Within.mapErr {f : ε → ε'} {x : Cmd Reply ε α} (h : Within n x) : Within n (Cmd.mapErr f x) :=
  Prog.Within.bind h fun _ => Prog.within_pure 0 _

theorem Within.attempt {x : Cmd Reply ε α} (h : Within n x) :
    Within n (Cmd.attempt x : Cmd Reply ε' (Except ε α)) :=
  Prog.Within.bind h fun _ => Prog.within_pure 0 _

theorem within_perform (op : Op) : Within 1 (perform op : Cmd Reply ε (Reply op)) :=
  fun _ => Prog.within_pure 0 _

variable (W : Op → Prop)

/-- An operation of `W` comes before every success. -/
def Passes (x : Cmd Reply ε α) : Prop := Prog.Passes W (fun o => ∀ a, o ≠ .ok a) x

variable {W}

theorem passes_fail {x : Cmd Reply ε α} {f : α → Cmd Reply ε β} (hf : ∀ a, Passes W (f a)) :
    Passes W (x >>= f) :=
  (Prog.passes_true x).bind fun o _ => by
    cases o with
    | ok a => exact hf a
    | error e => exact fun b hb => (by cases hb)

theorem Passes.bind {x : Cmd Reply ε α} (h : Passes W x) (f : α → Cmd Reply ε β) : Passes W (x >>= f) :=
  Prog.Passes.bind h fun o ho => by
    cases o with
    | ok a => exact absurd rfl (ho a)
    | error e => exact fun b hb => (by cases hb)

variable (device : Device Reply Φ S) (Faults : Φ → Prop) (P : Op → Prop) (Seen I : S → Prop)

/-- `Prog.Guarantees`, and a value is returned. -/
def Succeeds (x : Cmd Reply ε α) (Q : α → Prop) : Prop :=
  Prog.Guarantees device Faults P Seen I x fun o => ∃ a, o = .ok a ∧ Q a

variable {device Faults P Seen I} {Q : α → Prop} {R : β → Prop}

theorem succeeds_ofOutcome {o : Outcome ε α} {a : α} (ho : o = .ok a) (h : Q a) :
    Succeeds device Faults P Seen I (ofOutcome o : Cmd Reply ε α) Q := ⟨a, ho, h⟩

theorem Succeeds.bind {x : Cmd Reply ε α} {f : α → Cmd Reply ε β} (h : Succeeds device Faults P Seen I x Q)
    (hf : ∀ a, Q a → Succeeds device Faults P Seen I (f a) R) :
    Succeeds device Faults P Seen I (x >>= f) R :=
  Prog.Guarantees.bind h fun o ho => by
    obtain ⟨a, rfl, ha⟩ := ho
    exact hf a ha

theorem Succeeds.mapErr {f : ε → ε'} {x : Cmd Reply ε α} (h : Succeeds device Faults P Seen I x Q) :
    Succeeds device Faults P Seen I (Cmd.mapErr f x) Q :=
  Prog.Guarantees.bind h fun _ ⟨a, ho, ha⟩ => ⟨a, Outcome.mapErr_eq_ok.2 ho, ha⟩

theorem Succeeds.mono {x : Cmd Reply ε α} {Q' : α → Prop} (h : Succeeds device Faults P Seen I x Q)
    (hQ : ∀ a, Q a → Q' a) : Succeeds device Faults P Seen I x Q' :=
  Prog.Guarantees.mono h (fun _ hop => hop) fun _ ⟨a, ho, ha⟩ => ⟨a, ho, hQ a ha⟩

end Cmd

/-! ## Disks -/

namespace Fs

variable {ε : Type} {P : FileOp → Prop} {Seen I : Disk → Prop} {p : Path}

/-- No access of the program fails. -/
abbrev Succeeds (P : FileOp → Prop) (Seen I : Disk → Prop) (x : FileCmd ε α) (Q : α → Prop) : Prop :=
  Cmd.Succeeds FileOp.wary (· = none) P Seen I x Q

theorem within_readToString (p : Path) : Cmd.Within 1 (readToString p) :=
  (Cmd.within_perform _).bind (n := 0) fun _ => Cmd.within_ofOutcome _

theorem Single.within {x : FileCmd ε Unit} {op : FileOp} (h : Single x op) : Cmd.Within 1 x := by
  obtain ⟨g, rfl, -, -⟩ := h
  exact fun _ => Prog.within_pure 0 _

theorem Single.passes {W : FileOp → Prop} {x : FileCmd ε Unit} {op : FileOp} (h : Single x op) (hW : W op) :
    Cmd.Passes W x := by
  obtain ⟨g, rfl, -, -⟩ := h
  exact Or.inl hW

/-- One access that does not fail. -/
theorem Single.succeeds {x : FileCmd ε Unit} {op : FileOp} (h : Single x op) (hP : P op)
    (hop : ∀ d, Seen d → I d → I (op.handle d).2) : Succeeds P Seen I x fun _ => True := by
  obtain ⟨g, rfl, hok, -⟩ := h
  refine ⟨hP, fun φ d hφ hseen hI => ?_⟩
  rw [hφ, FileOp.wary_none]
  exact ⟨hop d hseen hI, (), hok d, trivial⟩

theorem shows_exist (p : Path) : Shows p (exist p : FileCmd ε Bool) fun d => .ok (d.has p) := by
  intro past
  refine ⟨rfl, fun r => knows_concat (e := ⟨.exist p, r⟩) past rfl fun d hreply => ?_⟩
  exact congrArg Except.ok hreply

/-- **A program that reads a file** finds what all disks of the run hold there. -/
theorem Shows.succeeds {x : FileCmd ε α} {f : Disk → Outcome ε α} {Q : α → Prop} (h : Shows p x f)
    (hP : ∀ op, op.LooksAt p → P op) (hf : ∀ d, Seen d → I d → ∃ a, f d = .ok a ∧ Q a) :
    Succeeds P Seen I x Q := by
  have hobeys : Prog.Guarantees FileOp.wary (· = none) P Seen I x fun o => ∃ past,
      Knows p (fun d => f d = o) past ∧ ∀ e ∈ past, ∃ d, Seen d ∧ I d ∧ (FileOp.handle e.op d).1 = e.reply := by
    refine Prog.Obeys.guarantees (h []) (fun _ => hP) (fun _ φ op d _ hop _ hseen hI => ?_)
      fun e he => (by cases he)
    have hstays : (op.handle d).2 = d := hop.isRead.faulty_eq none d
    rw [FileOp.wary_of_isRead hop.isRead, hstays]
    exact ⟨hI, d, hseen, hI, rfl⟩
  refine Prog.Guarantees.mono hobeys (fun _ hop => hop) ?_
  rintro o ⟨past, ⟨es, e, es', rfl, -, hfo, -⟩, hpast⟩
  obtain ⟨d, hseen, hI, hreply⟩ := hpast e (by simp)
  obtain ⟨a, ha, hQ⟩ := hf d hseen hI
  exact ⟨a, (hfo d hreply).symm.trans ha, hQ⟩

end Fs

end Rust
