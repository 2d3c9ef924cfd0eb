import SecureABE.Foundations.Agreement
import SecureABE.Foundations.SharedDisk

/-!
# Programs that share a device that may fail

Several programs work on one device, an operation at a time; a schedule says whose turn it is and which
fault comes with it. A program that is not in the rest of the schedule is cut off.

`Prog.Guarantees` is what one program owes the others: its operations are permitted ones, and each keeps an
invariant, whenever it is replied to in a state of the run where the invariant holds. What the others do
between its operations is not part of it, so it is proved for each program alone, part by part
(`Guarantees.bind`). The invariant then holds in all states of the run, and what is left of a program
guarantees what the program did (`Guarantees.interleaveFaulty`). What a program reads is what some state of
the run holds (`Fs.Shows.guarantees`).
-/

namespace Rust

variable {Op : Type} {Reply : Op → Type} {Φ S α β ι : Type}

namespace Prog

/-! ## Runs -/

section Runs

variable [DecidableEq ι] (device : Device Reply Φ S)

/-- What is left of the programs after the turns of a schedule, and the state. -/
def interleaveFaulty : List (ι × Φ) → (ι → Prog Reply α) → S → (ι → Prog Reply α) × S
  | [], ps, s => (ps, s)
  | (i, φ) :: sched, ps, s =>
    interleaveFaulty sched (Function.update ps i ((ps i).turn (device φ) s).1) ((ps i).turn (device φ) s).2

/-- The states of the run. -/
def passed : List (ι × Φ) → (ι → Prog Reply α) → S → List S
  | [], _, s => [s]
  | (i, φ) :: sched, ps, s =>
    s :: passed sched (Function.update ps i ((ps i).turn (device φ) s).1) ((ps i).turn (device φ) s).2

variable {device}

theorem interleaveFaulty_append (sched sched' : List (ι × Φ)) (ps : ι → Prog Reply α) (s : S) :
    interleaveFaulty device (sched ++ sched') ps s =
      interleaveFaulty device sched' (interleaveFaulty device sched ps s).1
        (interleaveFaulty device sched ps s).2 := by
  induction sched generalizing ps s with
  | nil => rfl
  | cons t sched ih =>
    rw [List.cons_append, interleaveFaulty, ih, interleaveFaulty]

/-- A program that has all its turns at once, without faults, ends as it does alone. -/
theorem exists_interleaveFaulty_run {handle : (op : Op) → S → Reply op × S} {φ : Φ}
    (hφ : ∀ op s, device φ op s = handle op s) (i : ι) (ps : ι → Prog Reply α) (s : S) :
    ∃ n, interleaveFaulty device (List.replicate n (i, φ)) ps s =
      (Function.update ps i (.pure ((ps i).run handle s).1), ((ps i).run handle s).2) := by
  generalize hp : ps i = p
  induction p generalizing ps s with
  | pure a =>
    refine ⟨0, ?_⟩
    rw [run, ← hp, Function.update_eq_self]
    rfl
  | step op next ih =>
    have hturn : (ps i).turn (device φ) s = (next (handle op s).1, (handle op s).2) := by
      rw [hp, turn, hφ]
    obtain ⟨n, hn⟩ := ih (handle op s).1 (Function.update ps i (next (handle op s).1)) (handle op s).2
      (Function.update_self ..)
    refine ⟨n + 1, ?_⟩
    rw [List.replicate_succ, interleaveFaulty, hturn, hn, Function.update_idem, run]

/-- Programs that have their turns one after another. -/
theorem exists_interleaveFaulty_foldl {handle : (op : Op) → S → Reply op × S} {φ : Φ}
    (hφ : ∀ op s, device φ op s = handle op s) (is : List ι) (hnd : is.Nodup) (ps : ι → Prog Reply α) (s : S) :
    ∃ sched, (interleaveFaulty device sched ps s).2 = is.foldl (fun s i => ((ps i).run handle s).2) s ∧
      (∀ j ∉ is, (interleaveFaulty device sched ps s).1 j = ps j) ∧
      ∀ before i after, is = before ++ i :: after → (interleaveFaulty device sched ps s).1 i =
        .pure ((ps i).run handle (before.foldl (fun s i => ((ps i).run handle s).2) s)).1 := by
  induction is using List.reverseRecOn with
  | nil => exact ⟨[], rfl, fun _ _ => rfl, fun before i after h => by simp at h⟩
  | append_singleton is i ih =>
    obtain ⟨hnd, -, hdisj⟩ := List.nodup_append.1 hnd
    have hi : i ∉ is := fun h => hdisj i h i (List.mem_singleton_self i) rfl
    obtain ⟨sched, hstate, hothers, hdone⟩ := ih hnd
    obtain ⟨n, hn⟩ := exists_interleaveFaulty_run hφ i (interleaveFaulty device sched ps s).1
      (interleaveFaulty device sched ps s).2
    rw [hothers i hi, hstate] at hn
    have hlast : interleaveFaulty device (sched ++ List.replicate n (i, φ)) ps s =
        (Function.update (interleaveFaulty device sched ps s).1 i
          (.pure ((ps i).run handle (is.foldl (fun s i => ((ps i).run handle s).2) s)).1),
          ((ps i).run handle (is.foldl (fun s i => ((ps i).run handle s).2) s)).2) := by
      rw [interleaveFaulty_append, hstate, hn]
    refine ⟨sched ++ List.replicate n (i, φ), ?_, fun j hj => ?_, fun before j after h => ?_⟩
    · rw [hlast, List.foldl_append]
      rfl
    · rw [List.mem_append, List.mem_singleton, not_or] at hj
      rw [hlast]
      exact (Function.update_of_ne hj.2 _ _).trans (hothers j hj.1)
    · rw [hlast]
      rcases List.eq_nil_or_concat after with rfl | ⟨after, k, rfl⟩
      · obtain ⟨rfl, hji⟩ := List.append_inj' h rfl
        obtain ⟨rfl, -⟩ := List.cons.inj hji
        exact Function.update_self ..
      · have hsplit : is = before ++ j :: after := by
          have h' : is ++ [i] = (before ++ j :: after) ++ [k] := by simpa using h
          exact (List.append_inj' h' rfl).1
        have hji : j ≠ i := by
          rintro rfl
          exact hi (by simp [hsplit])
        exact (Function.update_of_ne hji _ _).trans (hdone before j after hsplit)

end Runs

/-! ## Guarantees -/

variable (device : Device Reply Φ S) (Faults : Φ → Prop) (P : Op → Prop) (Seen I : S → Prop)

/-- The operations are permitted. In the states that are seen, where the invariant holds, each of them
keeps it under the faults that come with it, and the value is as the postcondition says. -/
def Guarantees : Prog Reply α → (α → Prop) → Prop
  | .pure a, Q => Q a
  | .step op next, Q =>
    P op ∧ ∀ φ s, Faults φ → Seen s → I s →
      I (device φ op s).2 ∧ (next (device φ op s).1).Guarantees Q

variable {device Faults P Seen I}

/-- One turn. -/
theorem Guarantees.turn {p : Prog Reply α} {Q : α → Prop} (h : p.Guarantees device Faults P Seen I Q)
    {φ : Φ} (hφ : Faults φ) {s : S} (hs : Seen s) (hI : I s) :
    I (p.turn (device φ) s).2 ∧ (p.turn (device φ) s).1.Guarantees device Faults P Seen I Q := by
  cases p with
  | pure a => exact ⟨hI, h⟩
  | step op next => exact h.2 φ s hφ hs hI

/-- **Guarantees together**: if the programs of a schedule keep the invariant, then it holds in all states
of the run, and what is left of a program guarantees what the program did. -/
theorem Guarantees.interleaveFaulty [DecidableEq ι] {Faults : ι → Φ → Prop} {P : ι → Op → Prop}
    {sched : List (ι × Φ)} {ps : ι → Prog Reply α} {Q : ι → α → Prop} {s : S}
    (h : ∀ i ∈ sched.map Prod.fst, (ps i).Guarantees device (Faults i) (P i) Seen I (Q i))
    (hfaults : ∀ t ∈ sched, Faults t.1 t.2) (hseen : ∀ t ∈ passed device sched ps s, Seen t) (hI : I s) :
    (∀ t ∈ passed device sched ps s, I t) ∧
      ∀ (i : ι) (P' : Op → Prop) (Q' : α → Prop), (ps i).Guarantees device (Faults i) P' Seen I Q' →
        ((Prog.interleaveFaulty device sched ps s).1 i).Guarantees device (Faults i) P' Seen I Q' := by
  induction sched generalizing ps s with
  | nil => exact ⟨fun t ht => List.mem_singleton.1 ht ▸ hI, fun i P' Q' hi => hi⟩
  | cons t sched ih =>
    obtain ⟨i, φ⟩ := t
    obtain ⟨hs, hrest⟩ := List.forall_mem_cons.1 hseen
    obtain ⟨hφ, hlater⟩ := List.forall_mem_cons.1 hfaults
    obtain ⟨hafter, -⟩ := (h i (by simp)).turn hφ hs hI
    -- one program has moved on, the others are as they were
    have hstep : ∀ (j : ι) (P' : Op → Prop) (Q' : α → Prop), (ps j).Guarantees device (Faults j) P' Seen I Q' →
        (Function.update ps i ((ps i).turn (device φ) s).1 j).Guarantees device (Faults j) P' Seen I Q' := by
      intro j P' Q' hj
      by_cases hji : j = i
      · subst hji
        rw [Function.update_self]
        exact (hj.turn hφ hs hI).2
      · rwa [Function.update_of_ne hji]
    obtain ⟨hstates, hleft⟩ := ih (fun j hj => hstep j _ _ (h j (by simp [hj]))) hlater hrest hafter
    exact ⟨List.forall_mem_cons.2 ⟨hI, hstates⟩, fun j P' Q' hj => hleft j P' Q' (hstep j P' Q' hj)⟩

theorem Guarantees.mono {P' : Op → Prop} {p : Prog Reply α} {Q R : α → Prop}
    (h : p.Guarantees device Faults P Seen I Q) (hP : ∀ op, P op → P' op) (hQR : ∀ a, Q a → R a) :
    p.Guarantees device Faults P' Seen I R := by
  induction p with
  | pure a => exact hQR a h
  | step op next ih => exact ⟨hP op h.1, fun φ s hφ hs hI => ⟨(h.2 φ s hφ hs hI).1, ih _ (h.2 φ s hφ hs hI).2⟩⟩

/-- Fewer faults come with the turns. -/
theorem Guarantees.of_faults {Faults' : Φ → Prop} {p : Prog Reply α} {Q : α → Prop}
    (h : p.Guarantees device Faults P Seen I Q) (hF : ∀ φ, Faults' φ → Faults φ) :
    p.Guarantees device Faults' P Seen I Q := by
  induction p with
  | pure a => exact h
  | step op next ih =>
    refine ⟨h.1, fun φ s hφ hs hI => ?_⟩
    obtain ⟨hafter, hnext⟩ := h.2 φ s (hF φ hφ) hs hI
    exact ⟨hafter, ih _ hnext⟩

/-- A sequence, part by part. -/
theorem Guarantees.bind {p : Prog Reply α} {f : α → Prog Reply β} {Q : α → Prop} {R : β → Prop}
    (h : p.Guarantees device Faults P Seen I Q) (hf : ∀ a, Q a → (f a).Guarantees device Faults P Seen I R) :
    (p.bind f).Guarantees device Faults P Seen I R := by
  induction p with
  | pure a => exact hf a h
  | step op next ih => exact ⟨h.1, fun φ s hφ hs hI => ⟨(h.2 φ s hφ hs hI).1, ih _ (h.2 φ s hφ hs hI).2⟩⟩

/-- Permitted operations that keep the invariant. -/
theorem Only.guarantees {R : Op → Prop} {p : Prog Reply α} {V : α → Prop} (h : p.Only R V)
    (hR : ∀ op, R op → P op) (hop : ∀ φ op s, R op → I s → I (device φ op s).2) :
    p.Guarantees device Faults P Seen I V := by
  induction p with
  | pure a => exact h
  | step op next ih => exact ⟨hR op h.1, fun φ s _ _ hI => ⟨hop φ op s h.1 hI, ih _ (h.2 _)⟩⟩

/-- A program obeys also what its operations are restricted to. -/
theorem Obeys.and_only {R : List (Event Reply) → Op → Prop} {p : Prog Reply α}
    {Q : List (Event Reply) → α → Prop} {past : List (Event Reply)} {V : α → Prop} (h : p.Obeys R Q past)
    (ho : p.Only P V) : p.Obeys (fun past op => R past op ∧ P op) (fun past a => Q past a ∧ V a) past := by
  induction p generalizing past with
  | pure a => exact ⟨h, ho⟩
  | step op next ih => exact ⟨⟨h.1, ho.1⟩, fun r => ih r (h.2 r) (ho.2 r)⟩

/-- What a program obeys after its history, it guarantees where its history is one of events that it may be
told of. -/
theorem Obeys.guarantees {Told : Event Reply → Prop} {R : List (Event Reply) → Op → Prop} {p : Prog Reply α}
    {Q : List (Event Reply) → α → Prop} {past : List (Event Reply)} (h : p.Obeys R Q past)
    (hR : ∀ past op, R past op → P op)
    (hop : ∀ past φ op s, (∀ e ∈ past, Told e) → R past op → Faults φ → Seen s → I s →
      I (device φ op s).2 ∧ Told ⟨op, (device φ op s).1⟩)
    (hpast : ∀ e ∈ past, Told e) :
    p.Guarantees device Faults P Seen I fun a => ∃ past', Q past' a ∧ ∀ e ∈ past', Told e := by
  induction p generalizing past with
  | pure a => exact ⟨past, h, hpast⟩
  | step op next ih =>
    refine ⟨hR past op h.1, fun φ s hφ hs hI => ?_⟩
    obtain ⟨hafter, htold⟩ := hop past φ op s hpast h.1 hφ hs hI
    refine ⟨hafter, ih _ (h.2 _) fun e he => ?_⟩
    rcases List.mem_append.1 he with hmem | hmem
    · exact hpast e hmem
    · exact List.mem_singleton.1 hmem ▸ htold

end Prog

/-! ## Fallible programs -/

namespace Cmd

variable {ε ε' : Type} (device : Device Reply Φ S) (Faults : Φ → Prop) (P : Op → Prop) (Seen I : S → Prop)

/-- `Prog.Guarantees`, with a property of the values that are returned. -/
def Guarantees (x : Cmd Reply ε α) (Q : α → Prop) : Prop :=
  Prog.Guarantees device Faults P Seen I x fun o => ∀ a, o = .ok a → Q a

variable {device Faults P Seen I} {Q : α → Prop} {R : β → Prop}

theorem guarantees_ofOutcome {o : Outcome ε α} (h : ∀ a, o = .ok a → Q a) :
    Guarantees device Faults P Seen I (ofOutcome o : Cmd Reply ε α) Q := h

theorem guarantees_pure {a : α} (h : Q a) : Guarantees device Faults P Seen I (Pure.pure a : Cmd Reply ε α) Q :=
  fun _ ha => Except.ok.inj ha ▸ h

theorem Guarantees.bind {x : Cmd Reply ε α} {f : α → Cmd Reply ε β}
    (h : Guarantees device Faults P Seen I x Q)
    (hf : ∀ a, Q a → Guarantees device Faults P Seen I (f a) R) :
    Guarantees device Faults P Seen I (x >>= f) R :=
  Prog.Guarantees.bind h fun o ho => by
    cases o with
    | ok a => exact hf a (ho a rfl)
    | error e => exact fun b hb => (by cases hb)

theorem Guarantees.mapErr {f : ε → ε'} {x : Cmd Reply ε α} (h : Guarantees device Faults P Seen I x Q) :
    Guarantees device Faults P Seen I (Cmd.mapErr f x) Q :=
  Prog.Guarantees.bind h fun _ ho a ha => ho a (Outcome.mapErr_eq_ok.1 ha)

theorem Guarantees.ite {p : Prop} [Decidable p] {x y : Cmd Reply ε α}
    (hx : p → Guarantees device Faults P Seen I x Q) (hy : ¬ p → Guarantees device Faults P Seen I y Q) :
    Guarantees device Faults P Seen I (if p then x else y) Q := by
  split_ifs with h
  · exact hx h
  · exact hy h

theorem Guarantees.mono {x : Cmd Reply ε α} {Q' : α → Prop} (h : Guarantees device Faults P Seen I x Q)
    (hQ : ∀ a, Q a → Q' a) : Guarantees device Faults P Seen I x Q' :=
  Prog.Guarantees.mono h (fun _ hop => hop) fun _ ho a ha => hQ a (ho a ha)

theorem Only.guarantees {R : Op → Prop} {x : Cmd Reply ε α} {V : α → Prop} (h : Only R x V)
    (hR : ∀ op, R op → P op) (hop : ∀ φ op s, R op → I s → I (device φ op s).2) :
    Guarantees device Faults P Seen I x V :=
  Prog.Only.guarantees h hR hop

end Cmd

/-! ## Disks -/

/-- A file that an access to a wary device does not change. -/
theorem FileOp.lookup_wary {op : FileOp} {p : Path} (h : ¬ op.Writes p) (φ : Option Fault) (d : Disk) :
    (wary φ op d).2.files.lookup p = d.files.lookup p := by
  cases φ with
  | none =>
    rw [wary_none]
    exact lookup_handle h d
  | some φ =>
    cases op with
    | read q | exist q | readDir q | write q b | openAppend q => rfl
    | createDirAll q =>
      show (d.createPart q φ.progress).files.lookup p = _
      cases φ.progress <;> rfl
    | append q b => exact Disk.lookup_append_ne (Ne.symm h) d _

/-- What is there stays there. -/
theorem FileOp.has_wary {d : Disk} {p : Path} (h : d.has p = true) (op : FileOp) (φ : Option Fault) :
    (wary φ op d).2.has p = true := by
  cases φ with
  | none =>
    rw [wary_none]
    exact Fs.has_handle h op
  | some φ =>
    cases op with
    | read q | exist q | readDir q | write q b | openAppend q => exact h
    | createDirAll q =>
      show (d.createPart q φ.progress).has p = true
      cases φ.progress with
      | zero => exact h
      | succ n => exact Disk.has_createDirAll h _
    | append q b => exact Disk.has_write h q _

theorem FileOp.LooksAt.isRead {op : FileOp} {p : Path} (h : op.LooksAt p) : op.IsRead := by
  cases op <;> simp_all [LooksAt, IsRead]

namespace Fs

variable {ε ε' : Type} {P : FileOp → Prop} {Seen I : Disk → Prop} {p : Path}

/-- The accesses of others may come between those of the program, its writes may fail, and it may be cut
off. -/
abbrev Guarantees (P : FileOp → Prop) (Seen I : Disk → Prop) (x : FileCmd ε α) (Q : α → Prop) : Prop :=
  Cmd.Guarantees FileOp.wary (fun _ => True) P Seen I x Q

/-- **What a program knows** by a look is so on a disk of the run. -/
theorem guarantees_of_knows {x : FileCmd ε α} {φ : α → Disk → Prop} {V : α → Prop}
    (h : Cmd.Obeys (fun _ op => op.LooksAt p) x (fun past a => Knows p (φ a) past ∧ V a) [])
    (hP : ∀ op, op.LooksAt p → P op) :
    Guarantees P Seen I x fun a => (∃ d, Seen d ∧ I d ∧ φ a d) ∧ V a := by
  have hobeys : Prog.Guarantees FileOp.wary (fun _ => True) P Seen I x fun o => ∃ past,
      (∀ a, o = .ok a → Knows p (φ a) past ∧ V a) ∧
        ∀ e ∈ past, ∃ d, Seen d ∧ I d ∧ (FileOp.handle e.op d).1 = e.reply := by
    refine Prog.Obeys.guarantees h (fun _ => hP) (fun _ φ op d _ hop _ hseen hI => ?_) fun e he => (by cases he)
    have hstays : (op.handle d).2 = d := hop.isRead.faulty_eq none d
    rw [FileOp.wary_of_isRead hop.isRead, hstays]
    exact ⟨hI, d, hseen, hI, rfl⟩
  refine Prog.Guarantees.mono hobeys (fun _ hop => hop) ?_
  rintro o ⟨past, ho, hpast⟩ a ha
  obtain ⟨⟨es, e, es', rfl, -, hφ, -⟩, hV⟩ := ho a ha
  obtain ⟨d, hseen, hI, hreply⟩ := hpast e (by simp)
  exact ⟨⟨d, hseen, hI, hφ d hreply⟩, hV⟩

/-- **What a program reads** is what a disk of the run holds. -/
theorem Shows.guarantees {x : FileCmd ε α} {f : Disk → Outcome ε α} (h : Shows p x f)
    (hP : ∀ op, op.LooksAt p → P op) :
    Guarantees P Seen I x fun a => ∃ d, Seen d ∧ I d ∧ f d = .ok a :=
  (guarantees_of_knows (V := fun _ => True) (φ := fun a d => f d = .ok a)
    ((h []).mono fun _ _ ho _ ha => ⟨ho.mono fun _ hd => hd.trans ha, trivial⟩) hP).mono fun _ ha => ha.1

/-- One access. -/
theorem Single.guarantees {x : FileCmd ε Unit} {op : FileOp} (h : Single x op) (hP : P op)
    (hop : ∀ φ d, Seen d → I d → I (FileOp.wary φ op d).2) : Guarantees P Seen I x fun _ => True := by
  obtain ⟨g, rfl, -, -⟩ := h
  exact ⟨hP, fun φ d _ hseen hI => ⟨hop φ d hseen hI, fun _ _ => trivial⟩⟩

/-- A write of a file that is done or not done. -/
theorem guarantees_write {b : Bytes} {g : IoError → ε} (hP : P (.write p b))
    (h : ∀ d, Seen d → I d → I (d.write p b)) :
    Guarantees P Seen I (Cmd.mapErr g (write p b)) fun _ => True :=
  (single_write p b).mapErr.guarantees hP fun φ d hseen hI => by
    cases φ with
    | none => exact h d hseen hI
    | some φ => exact hI

end Fs

end Rust
