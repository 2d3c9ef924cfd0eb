import SecureABE.Foundations.FaultyDisk

/-!
# Programs with the faults to come

`Device.flaky` is a device together with the faults of the accesses to come, in order; after the last one
nothing fails any more. Run on it a program always ends, and leaves the faults it has not met. So the run
of a sequence is put together from the runs of its parts (`Cmd.exec_bind`), each with the faults that the
one before has left.

With a single fault ahead (`faultAt`), a program that is done earlier runs as if there were none, and
any other meets it (`run_faultAt`).
-/

namespace Rust

variable {Op : Type} {Reply : Op → Type} {Φ S α : Type}

/-- The device with the faults to come, each that of one operation. -/
def Device.flaky (device : Device Reply (Option Φ) S) (op : Op) (s : S × List (Option Φ)) :
    Reply op × (S × List (Option Φ)) :=
  ((device s.2.head?.join op s.1).1, (device s.2.head?.join op s.1).2, s.2.tail)

/-- A single fault, after `n` operations. -/
def faultAt (n : ℕ) (φ : Φ) : List (Option Φ) := List.replicate n none ++ [some φ]

theorem flaky_faultAt_zero (device : Device Reply (Option Φ) S) (op : Op) (s : S) (φ : Φ) :
    device.flaky op (s, faultAt 0 φ) = ((device (some φ) op s).1, (device (some φ) op s).2, []) := rfl

theorem flaky_faultAt_succ (device : Device Reply (Option Φ) S) (op : Op) (s : S) (n : ℕ) (φ : Φ) :
    device.flaky op (s, faultAt (n + 1) φ) =
      ((device none op s).1, (device none op s).2, faultAt n φ) := by
  rw [faultAt, List.replicate_succ]
  rfl

namespace Prog

/-- The number of operations of a program. -/
def cost (handle : (op : Op) → S → Reply op × S) : Prog Reply α → S → ℕ
  | .pure _, _ => 0
  | .step op next, s => 1 + (next (handle op s).1).cost handle (handle op s).2

theorem cost_bind {β : Type} {handle : (op : Op) → S → Reply op × S} (p : Prog Reply α)
    (f : α → Prog Reply β) (s : S) : (p.bind f).cost handle s =
      p.cost handle s + (f (p.run handle s).1).cost handle (p.run handle s).2 := by
  induction p generalizing s with
  | pure a => exact (Nat.zero_add _).symm
  | step op next ih => rw [bind, cost, cost, run, ih, Nat.add_assoc]

/-- What operations with a property keep, a program of such operations keeps. -/
theorem Only.run {P : Op → Prop} {p : Prog Reply α} {V : α → Prop} (h : p.Only P V)
    {handle : (op : Op) → S → Reply op × S} {I : S → Prop}
    (hop : ∀ op s, P op → I s → I (handle op s).2) {s : S} (hs : I s) :
    I (p.run handle s).2 ∧ V (p.run handle s).1 := by
  induction p generalizing s with
  | pure a => exact ⟨hs, h⟩
  | step op next ih => exact ih _ (h.2 _) (hop op s h.1 hs)

variable (device : Device Reply (Option Φ) S)

variable {device} in
/-- What is safe whatever the faults is safe with those to come. -/
theorem Safe.of_run_flaky {I : S → Prop} {p : Prog Reply α} {Q : α → S → Prop} {s : S}
    (h : p.Safe device I Q s) (φs : List (Option Φ)) :
    Q (p.run device.flaky (s, φs)).1 (p.run device.flaky (s, φs)).2.1 := by
  induction p generalizing s φs with
  | pure a => exact h
  | step op next ih => exact ih _ (h.2 φs.head?.join) φs.tail

/-- With no fault to come nothing fails. -/
theorem run_flaky_nil (p : Prog Reply α) (s : S) :
    p.run device.flaky (s, []) = ((p.run (device none) s).1, (p.run (device none) s).2, []) := by
  induction p generalizing s with
  | pure a => rfl
  | step op next ih => exact ih _ _

/-- A program that is done before the fault runs as if there were none. -/
theorem run_faultAt {p : Prog Reply α} {s : S} {n : ℕ} (h : p.cost (device none) s ≤ n) (φ : Φ) :
    p.run device.flaky (s, faultAt n φ) = ((p.run (device none) s).1, (p.run (device none) s).2,
      faultAt (n - p.cost (device none) s) φ) := by
  induction p generalizing s n with
  | pure a => rfl
  | step op next ih =>
    rw [cost] at h ⊢
    obtain ⟨m, rfl⟩ : ∃ m, n = m + 1 := ⟨n - 1, by omega⟩
    have hleft : m + 1 - (1 + (next (device none op s).1).cost (device none) (device none op s).2) =
        m - (next (device none op s).1).cost (device none) (device none op s).2 := by omega
    rw [run, flaky_faultAt_succ]
    change run device.flaky (next (device none op s).1) ((device none op s).2, faultAt m φ) = _
    rw [ih _ (by omega), hleft]
    rfl

/-- A program that is not has met it at its end. -/
theorem faults_run_faultAt {p : Prog Reply α} {s : S} {n : ℕ} (h : n < p.cost (device none) s)
    (φ : Φ) : (p.run device.flaky (s, faultAt n φ)).2.2 = [] := by
  induction p generalizing s n with
  | pure a => exact absurd h (Nat.not_lt_zero n)
  | step op next ih =>
    cases n with
    | zero => rw [run, flaky_faultAt_zero, run_flaky_nil]
    | succ n =>
      unfold cost at h
      rw [run, flaky_faultAt_succ]
      change (run device.flaky (next (device none op s).1) ((device none op s).2, faultAt n φ)).2.2 = []
      exact ih _ (by omega)

end Prog

/-! ## Files that are left alone -/

/-- The access leaves a file as it is, whether it fails or not. -/
def FileOp.Spares (p : Path) (op : FileOp) : Prop :=
  ∀ φ d, (faulty φ op d).2.files.lookup p = d.files.lookup p

namespace FileOp

variable {p q : Path}

theorem IsRead.spares {op : FileOp} (h : op.IsRead) : op.Spares p := fun φ d => by
  rw [h.faulty_eq]

theorem spares_write (h : p ≠ q) (b : Bytes) : (write q b).Spares p := fun φ d => by
  cases φ with
  | none => exact Disk.lookup_write_ne h d b
  | some φ => rfl

theorem spares_createDirAll : (createDirAll q).Spares p := fun φ d => by
  cases φ with
  | none => rfl
  | some φ =>
    change (d.createPart q φ.progress).files.lookup p = _
    cases φ.progress <;> rfl

theorem spares_openAppend (h : p ≠ q) : (openAppend q).Spares p := fun φ d => by
  cases φ with
  | none => exact Disk.lookup_append_ne h d []
  | some φ => rfl

theorem spares_append (h : p ≠ q) (b : Bytes) : (append q b).Spares p := fun φ d => by
  cases φ with
  | none => exact Disk.lookup_append_ne h d b
  | some φ => exact Disk.lookup_append_ne h d _

end FileOp

namespace Fs

variable {ε ε' β : Type}

/-- The outcome of a program on a disk with the faults to come, the disk after it, and the faults that are
left. -/
def execFlaky (x : FileCmd ε α) (s : Disk × List (Option Fault)) :
    Outcome ε α × (Disk × List (Option Fault)) := Cmd.exec FileOp.faulty.flaky x s

theorem execFlaky_bind (x : FileCmd ε α) (f : α → FileCmd ε β) (s : Disk × List (Option Fault)) :
    execFlaky (x >>= f) s = Cmd.andThen (execFlaky x s) fun a s => execFlaky (f a) s :=
  Cmd.exec_bind FileOp.faulty.flaky x f s

/-- A sequence that returned a value ran both its parts. -/
theorem execFlaky_bind_eq_ok {x : FileCmd ε α} {f : α → FileCmd ε β} {s s' : Disk × List (Option Fault)}
    {b : β} : execFlaky (x >>= f) s = (.ok b, s') ↔
      ∃ a t, execFlaky x s = (.ok a, t) ∧ execFlaky (f a) t = (.ok b, s') := by
  rw [execFlaky_bind]
  rcases execFlaky x s with ⟨e | a, t⟩
  · simp
  · simp [and_assoc]

@[simp] theorem execFlaky_ofOutcome (o : Outcome ε α) (s : Disk × List (Option Fault)) :
    execFlaky (Cmd.ofOutcome o : FileCmd ε α) s = (o, s) := rfl

@[simp] theorem execFlaky_pure (a : α) (s : Disk × List (Option Fault)) :
    execFlaky (pure a : FileCmd ε α) s = (.ok a, s) := rfl

theorem execFlaky_mapErr (f : ε → ε') (x : FileCmd ε α) (s : Disk × List (Option Fault)) :
    execFlaky (Cmd.mapErr f x) s = ((execFlaky x s).1.mapErr f, (execFlaky x s).2) :=
  Cmd.exec_mapErr FileOp.faulty.flaky f x s

theorem execFlaky_attempt (x : FileCmd ε α) (s : Disk × List (Option Fault)) :
    execFlaky (Cmd.attempt x : FileCmd ε' (Except ε α)) s =
      (Cmd.caught (execFlaky x s).1, (execFlaky x s).2) :=
  Cmd.exec_attempt FileOp.faulty.flaky x s

theorem execFlaky_nil (x : FileCmd ε α) (d : Disk) :
    execFlaky x (d, []) = ((exec x d).1, ((exec x d).2, [])) :=
  Prog.run_flaky_nil FileOp.faulty x d

/-- A program that leaves the disk as it is does so with faults to come. -/
theorem Peeks.of_execFlaky {x : FileCmd ε α} {d : Disk} {P : α → Prop} (h : Peeks x d P)
    {φs : List (Option Fault)} {o : Outcome ε α} {s' : Disk × List (Option Fault)}
    (hrun : execFlaky x (d, φs) = (o, s')) : s'.1 = d ∧ ∀ a, o = .ok a → P a := by
  have hend := Prog.Safe.of_run_flaky h φs
  rw [show Prog.run FileOp.faulty.flaky x (d, φs) = (o, s') from hrun] at hend
  cases o with
  | ok a =>
    obtain ⟨hd, ha⟩ := hend.1 a rfl
    exact ⟨hd, fun b hb => Except.ok.inj hb ▸ ha⟩
  | error e => exact ⟨hend.2 e rfl, fun a ha => (by cases ha)⟩

/-- A program whose accesses leave a file alone leaves it as it is. -/
theorem lookup_execFlaky {p : Path} {x : FileCmd ε α} {V : α → Prop}
    (h : Cmd.Only (FileOp.Spares p) x V) (s : Disk × List (Option Fault)) :
    (execFlaky x s).2.1.files.lookup p = s.1.files.lookup p :=
  (Prog.Only.run (I := fun t : Disk × List (Option Fault) => t.1.files.lookup p = s.1.files.lookup p) h
    (fun _ t hop ht => (hop t.2.head?.join t.1).trans ht) rfl).1

/-- A program whose accesses leave a file alone or write one text to it leaves it as it is or with this
text. -/
theorem lookup_execFlaky_of_write {p : Path} {b : Bytes} {x : FileCmd ε α} {V : α → Prop}
    (h : Cmd.Only (fun op => op.Spares p ∨ op = .write p b) x V) (s : Disk × List (Option Fault)) :
    (execFlaky x s).2.1.files.lookup p = s.1.files.lookup p ∨
      (execFlaky x s).2.1.files.lookup p = some b := by
  refine (Prog.Only.run (I := fun t : Disk × List (Option Fault) =>
    t.1.files.lookup p = s.1.files.lookup p ∨ t.1.files.lookup p = some b) h ?_ (Or.inl rfl)).1
  rintro op ⟨d, φs⟩ (hop | rfl) hd
  · exact hd.imp (hop φs.head?.join d).trans (hop φs.head?.join d).trans
  · change (FileOp.faulty φs.head?.join (.write p b) d).2.files.lookup p = _ ∨
      (FileOp.faulty φs.head?.join (.write p b) d).2.files.lookup p = _
    cases φs.head?.join with
    | none => exact Or.inr (Disk.lookup_write_self d p b)
    | some φ => exact hd

theorem OnlyReads.spares {p : Path} {x : FileCmd ε α} {V : α → Prop} (h : OnlyReads x V) :
    Cmd.Only (FileOp.Spares p) x V := Cmd.Only.mono h fun _ hop => hop.spares

theorem execFlaky_write_of_none {φs : List (Option Fault)} (h : φs.head?.join = none) (p : Path)
    (b : Bytes) (d : Disk) : execFlaky (write p b) (d, φs) = (.ok (), (d.write p b, φs.tail)) := by
  rcases φs with _ | ⟨_ | φ, φs⟩
  · rfl
  · rfl
  · cases h

theorem execFlaky_write_of_some {φs : List (Option Fault)} {φ : Fault} (h : φs.head?.join = some φ)
    (p : Path) (b : Bytes) (d : Disk) :
    execFlaky (write p b) (d, φs) = (Outcome.err φ.error, (d, φs.tail)) := by
  rcases φs with _ | ⟨_ | φ, φs⟩
  · cases h
  · cases h
  · cases h
    rfl

theorem execFlaky_readToString_of_none {φs : List (Option Fault)} (h : φs.head?.join = none) (p : Path)
    (d : Disk) : execFlaky (readToString p) (d, φs) = (textOf (d.read p), (d, φs.tail)) := by
  rcases φs with _ | ⟨_ | φ, φs⟩
  · rfl
  · rfl
  · cases h

theorem execFlaky_readToString_of_some {φs : List (Option Fault)} {φ : Fault}
    (h : φs.head?.join = some φ) (p : Path) (d : Disk) :
    execFlaky (readToString p) (d, φs) = (Outcome.err φ.error, (d, φs.tail)) := by
  rcases φs with _ | ⟨_ | φ, φs⟩
  · cases h
  · cases h
  · cases h
    rfl

/-! ### Accesses -/

/-- The number of accesses of a program when none of them fails. -/
def accesses (x : FileCmd ε α) (d : Disk) : ℕ := Prog.cost FileOp.handle x d

@[simp] theorem accesses_ofOutcome (o : Outcome ε α) (d : Disk) :
    accesses (Cmd.ofOutcome o : FileCmd ε α) d = 0 := rfl

@[simp] theorem accesses_pure (a : α) (d : Disk) : accesses (pure a : FileCmd ε α) d = 0 := rfl

@[simp] theorem accesses_exist (p : Path) (d : Disk) : accesses (exist p : FileCmd ε Bool) d = 1 := rfl

@[simp] theorem accesses_readToString (p : Path) (d : Disk) : accesses (readToString p) d = 1 := rfl

theorem accesses_mapErr (f : ε → ε') (x : FileCmd ε α) (d : Disk) :
    accesses (Cmd.mapErr f x) d = accesses x d := Prog.cost_bind x _ d

theorem accesses_attempt (x : FileCmd ε α) (d : Disk) :
    accesses (Cmd.attempt x : FileCmd ε' (Except ε α)) d = accesses x d := Prog.cost_bind x _ d

theorem accesses_bind_ok {x : FileCmd ε α} {f : α → FileCmd ε β} {d d' : Disk} {a : α}
    (h : exec x d = (.ok a, d')) : accesses (x >>= f) d = accesses x d + accesses (f a) d' := by
  apply (Prog.cost_bind x (Cmd.follow f) d).trans
  rw [show Prog.run FileOp.handle x d = (.ok a, d') from h]
  rfl

/-- If the first part fails, the second has no accesses. -/
theorem accesses_bind_error {x : FileCmd ε α} {f : α → FileCmd ε β} {d d' : Disk} {e : Failure ε}
    (h : exec x d = (.error e, d')) : accesses (x >>= f) d = accesses x d := by
  apply (Prog.cost_bind x (Cmd.follow f) d).trans
  rw [show Prog.run FileOp.handle x d = (.error e, d') from h]
  rfl

theorem Reads.accesses_bind_le {x : FileCmd ε α} {f : α → FileCmd ε β} {d : Disk} {o : Outcome ε α}
    (h : Reads x d o) {j k : ℕ} (hx : accesses x d ≤ j) (hf : ∀ a, accesses (f a) d ≤ k) :
    accesses (x >>= f) d ≤ j + k := by
  cases o with
  | error e =>
    rw [accesses_bind_error h]
    exact hx.trans (Nat.le_add_right j k)
  | ok a =>
    rw [accesses_bind_ok h]
    exact Nat.add_le_add hx (hf a)

/-- Without accesses in the second part. -/
theorem accesses_bind_eq {x : FileCmd ε α} {f : α → FileCmd ε β} (hf : ∀ a d, accesses (f a) d = 0)
    (d : Disk) : accesses (x >>= f) d = accesses x d := by
  rcases h : exec x d with ⟨e | a, d'⟩
  · exact accesses_bind_error h
  · rw [accesses_bind_ok h, hf, Nat.add_zero]

/-- A program that is done before the fault runs as if there were none. -/
theorem execFlaky_faultAt {x : FileCmd ε α} {d : Disk} {n : ℕ} (h : accesses x d ≤ n) (φ : Fault) :
    execFlaky x (d, faultAt n φ) =
      ((exec x d).1, ((exec x d).2, faultAt (n - accesses x d) φ)) := Prog.run_faultAt FileOp.faulty h φ

theorem faults_execFlaky_faultAt {x : FileCmd ε α} {d : Disk} {n : ℕ} (h : n < accesses x d)
    (φ : Fault) : (execFlaky x (d, faultAt n φ)).2.2 = [] := Prog.faults_run_faultAt FileOp.faulty h φ

theorem head_faultAt {n : ℕ} (h : n ≠ 0) (φ : Fault) : (faultAt n φ).head?.join = none := by
  obtain ⟨m, rfl⟩ := Nat.exists_eq_succ_of_ne_zero h
  rfl

end Fs

end Rust
