import SecureABE.Foundations.FaultyDisk

/-!
# Disks that agree, and devices that read reliably

Two disks may agree on some files and paths and differ elsewhere (`Disk.Agree`). A program that looks at
these only cannot tell them apart: on both it has the same outcome, with the same faults, and leaves disks
that agree (`agree_of_only`).

`FileOp.wary` is a device whose reads do not fail: a program may be cut off, and its writes may fail. What
a program reads there is what it would read alone (`Fs.Reads.then_wary`).
-/

namespace Rust

/-! ## Agreement -/

/-- The same contents at the files of `P`, and the same of the paths of `Q` are there. -/
structure Disk.Agree (P Q : Path → Prop) (d d' : Disk) : Prop where
  lookup : ∀ p, P p → d.files.lookup p = d'.files.lookup p
  has : ∀ p, Q p → d.has p = d'.has p

namespace Disk

variable {P P' Q Q' : Path → Prop} {d d' d'' : Disk} {p : Path}

namespace Agree

theorem refl (d : Disk) : d.Agree P Q d := ⟨fun _ _ => rfl, fun _ _ => rfl⟩

theorem symm (h : d.Agree P Q d') : d'.Agree P Q d :=
  ⟨fun p hp => (h.lookup p hp).symm, fun p hp => (h.has p hp).symm⟩

theorem trans (h : d.Agree P Q d') (h' : d'.Agree P Q d'') : d.Agree P Q d'' :=
  ⟨fun p hp => (h.lookup p hp).trans (h'.lookup p hp), fun p hp => (h.has p hp).trans (h'.has p hp)⟩

theorem mono (h : d.Agree P Q d') (hP : ∀ p, P' p → P p) (hQ : ∀ p, Q' p → Q p) : d.Agree P' Q' d' :=
  ⟨fun p hp => h.lookup p (hP p hp), fun p hp => h.has p (hQ p hp)⟩

theorem write (h : d.Agree P Q d') (p : Path) (b : Bytes) : (d.write p b).Agree P Q (d'.write p b) where
  lookup := by
    intro q hq
    by_cases hqp : q = p
    · rw [hqp, lookup_write_self, lookup_write_self]
    · rw [lookup_write_ne hqp, lookup_write_ne hqp, h.lookup q hq]
  has := by
    intro q hq
    by_cases hqp : q = p
    · rw [hqp, has_of_lookup (lookup_write_self d p b), has_of_lookup (lookup_write_self d' p b)]
    · rw [has_write_of_ne hqp, has_write_of_ne hqp, h.has q hq]

theorem createDirAll (h : d.Agree P Q d') (p : Path) : (d.createDirAll p).Agree P Q (d'.createDirAll p) where
  lookup := h.lookup
  has := by
    intro q hq
    rw [Bool.eq_iff_iff, has_createDirAll_iff, has_createDirAll_iff, h.has q hq]

theorem createPart (h : d.Agree P Q d') (p : Path) (n : ℕ) :
    (d.createPart p n).Agree P Q (d'.createPart p n) := by
  cases n with
  | zero => exact h
  | succ n => exact h.createDirAll _

theorem append (h : d.Agree P Q d') (p : Path) (b : Bytes) : (d.append p b).Agree P Q (d'.append p b) where
  lookup := by
    intro q hq
    by_cases hqp : q = p
    · subst hqp
      rw [lookup_append_self, lookup_append_self, contents, contents, h.lookup q hq]
    · rw [lookup_append_ne hqp, lookup_append_ne hqp, h.lookup q hq]
  has := by
    intro q hq
    by_cases hqp : q = p
    · subst hqp
      rw [has_of_lookup (lookup_append_self d q b), has_of_lookup (lookup_append_self d' q b)]
    · exact (has_write_of_ne hqp d _).trans ((h.has q hq).trans (has_write_of_ne hqp d' _).symm)

end Agree

/-! ### Changes elsewhere -/

theorem agree_write (hP : ¬ P p) (hQ : ¬ Q p) (d : Disk) (b : Bytes) : (d.write p b).Agree P Q d where
  lookup := by
    intro q hq
    exact lookup_write_ne (by rintro rfl; exact hP hq) d b
  has := by
    intro q hq
    exact has_write_of_ne (by rintro rfl; exact hQ hq) d b

theorem agree_append (hP : ¬ P p) (hQ : ¬ Q p) (d : Disk) (b : Bytes) : (d.append p b).Agree P Q d :=
  agree_write hP hQ d _

theorem agree_createDirAll (hQ : ∀ q, Q q → q ∉ p.ancestors) (d : Disk) :
    (d.createDirAll p).Agree P Q d where
  lookup := fun _ _ => rfl
  has := by
    intro q hq
    rw [Bool.eq_iff_iff, has_createDirAll_iff]
    exact or_iff_left (hQ q hq)

theorem agree_createPart (hQ : ∀ q, Q q → q ∉ p.ancestors) (d : Disk) (n : ℕ) :
    (d.createPart p n).Agree P Q d := by
  cases n with
  | zero => exact Agree.refl d
  | succ n =>
    refine agree_createDirAll (fun q hq hmem => hQ q hq ?_) d
    -- a part of the way is on the way
    obtain ⟨cs, hcs, rfl⟩ := List.mem_map.1 hmem
    refine List.mem_map_of_mem ((List.mem_inits _ _).2 ?_)
    exact ((List.mem_inits _ _).1 hcs).trans ((List.take_prefix _ _).trans (List.dropLast_prefix _))

end Disk

/-! ## Devices that read reliably -/

namespace FileOp

instance : DecidablePred IsRead := fun op =>
  match op with
  | .read _ | .exist _ | .readDir _ => inferInstanceAs (Decidable True)
  | .write _ _ | .createDirAll _ | .openAppend _ | .append _ _ => inferInstanceAs (Decidable False)

/-- The effect of an access on a device on which only writing may fail. -/
def wary : Device Reply (Option Fault) Disk := fun φ op d =>
  if op.IsRead then op.handle d else faulty φ op d

theorem wary_of_isRead {op : FileOp} (h : op.IsRead) (φ : Option Fault) (d : Disk) :
    wary φ op d = op.handle d := if_pos h

theorem wary_of_not_isRead {op : FileOp} (h : ¬ op.IsRead) (φ : Option Fault) (d : Disk) :
    wary φ op d = faulty φ op d := if_neg h

/-- Without a fault all devices do the same. -/
theorem wary_none (op : FileOp) (d : Disk) : wary none op d = op.handle d := ite_self _

/-- The access looks at files of `P` and at whether paths of `Q` are there, and nothing else. -/
def Sees (P Q : Path → Prop) : FileOp → Prop
  | .read p => P p
  | .exist p => Q p
  | .readDir _ => False
  | _ => True

variable {P Q : Path → Prop}

/-- **An access** cannot tell disks apart that agree on what it sees. -/
theorem agree_wary {op : FileOp} (hop : op.Sees P Q) (φ : Option Fault) {d d' : Disk}
    (h : d.Agree P Q d') : (wary φ op d).1 = (wary φ op d').1 ∧ (wary φ op d).2.Agree P Q (wary φ op d').2 := by
  cases op with
  | read p => exact ⟨Disk.read_congr (h.lookup p hop), h⟩
  | exist p => exact ⟨h.has p hop, h⟩
  | readDir p => cases hop
  | write p b =>
    cases φ with
    | none => exact ⟨rfl, h.write p b⟩
    | some φ => exact ⟨rfl, h⟩
  | createDirAll p =>
    cases φ with
    | none => exact ⟨rfl, h.createDirAll p⟩
    | some φ => exact ⟨rfl, h.createPart p φ.progress⟩
  | openAppend p =>
    cases φ with
    | none => exact ⟨rfl, h.append p []⟩
    | some φ => exact ⟨rfl, h⟩
  | append p b =>
    cases φ with
    | none => exact ⟨rfl, h.append p b⟩
    | some φ => exact ⟨rfl, h.append p _⟩

theorem agree_handle {op : FileOp} (hop : op.Sees P Q) {d d' : Disk} (h : d.Agree P Q d') :
    (op.handle d).1 = (op.handle d').1 ∧ (op.handle d).2.Agree P Q (op.handle d').2 := by
  have hagree := agree_wary hop none h
  rwa [wary_none, wary_none] at hagree

end FileOp

namespace Fs

variable {ε ε' α β : Type} {P Q : Path → Prop}

/-- **A program** cannot tell disks apart that agree on what it sees. -/
theorem agree_of_only {x : FileCmd ε α} {V : α → Prop} (hx : Cmd.Only (FileOp.Sees P Q) x V)
    {d d' : Disk} (h : d.Agree P Q d') (faults : List (Option Fault)) :
    (Prog.runFaulty FileOp.wary x faults d).1 = (Prog.runFaulty FileOp.wary x faults d').1 ∧
      (Prog.runFaulty FileOp.wary x faults d).2.Agree P Q (Prog.runFaulty FileOp.wary x faults d').2 :=
  Prog.Only.related hx (fun φ _ _ _ hop hs => FileOp.agree_wary hop φ hs) h faults

theorem agree_exec_of_only {x : FileCmd ε α} {V : α → Prop} (hx : Cmd.Only (FileOp.Sees P Q) x V)
    {d d' : Disk} (h : d.Agree P Q d') :
    (exec x d).1 = (exec x d').1 ∧ (exec x d).2.Agree P Q (exec x d').2 := by
  unfold exec Cmd.exec
  unfold Cmd.Only at hx
  induction x generalizing d d' with
  | pure o => exact ⟨rfl, h⟩
  | step op next ih =>
    obtain ⟨hreply, hafter⟩ := FileOp.agree_handle hx.1 h
    rw [Prog.run, Prog.run, ← hreply]
    exact ih _ (hx.2 _) hafter

/-- Undisturbed, a program does what it does alone. -/
theorem exists_wary_eq_exec (x : FileCmd ε α) (d : Disk) :
    ∃ faults, Prog.runFaulty FileOp.wary x faults d = (some (exec x d).1, (exec x d).2) := by
  obtain ⟨n, hn⟩ := Prog.exists_runFaulty_replicate FileOp.wary_none x d
  exact ⟨_, hn⟩

/-! ### Safety on a wary device -/

variable {I E : Disk → Prop} {d : Disk}

/-- On the way of the program its writes may fail, and it may be cut off. -/
abbrev WarySafe (I E : Disk → Prop) (x : FileCmd ε α) (R : α → Disk → Prop) (d : Disk) : Prop :=
  Cmd.Safe FileOp.wary I E x R d

/-- A part that does not read. -/
theorem Safe.wary {x : FileCmd ε α} {V : α → Prop} {R : α → Disk → Prop}
    (hx : Cmd.Only (fun op => ¬ op.IsRead) x V) (h : Safe I E x R d) : WarySafe I E x R d :=
  Prog.Safe.congr_device hx (fun φ _ d hop => FileOp.wary_of_not_isRead hop φ d) h

section Writing

variable {p : Path} {b : Bytes} {g : IoError → ε} {R : Unit → Disk → Prop}

theorem wary_write (hcut : I d) (hfault : E d) (hdone : R () (d.write p b)) :
    WarySafe I E (Cmd.mapErr g (write p b)) R d :=
  Safe.wary ((single_write p b).mapErr.only not_false) (safe_write hcut hfault hdone).mapErr

theorem wary_createDirAll (hcut : I d) (hfault : ∀ n, E (d.createPart p n)) (hdone : R () (d.createDirAll p)) :
    WarySafe I E (Cmd.mapErr g (createDirAll p)) R d :=
  Safe.wary ((single_createDirAll p).mapErr.only not_false) (safe_createDirAll hcut hfault hdone).mapErr

theorem wary_openAppend (hcut : I d) (hfault : E d) (hdone : R () (d.append p [])) :
    WarySafe I E (Cmd.mapErr g (openAppend p)) R d :=
  Safe.wary ((single_openAppend p).mapErr.only not_false) (safe_openAppend hcut hfault hdone).mapErr

theorem wary_append (hcut : I d) (hfault : ∀ n, E (d.appendPart p b n)) (hdone : R () (d.append p b)) :
    WarySafe I E (Cmd.mapErr g (append p b)) R d :=
  Safe.wary ((single_append p b).mapErr.only not_false) (safe_append hcut hfault hdone).mapErr

end Writing

/-- **What a program reads** is what it would read alone. -/
theorem Reads.then_wary {x : FileCmd ε α} {f : α → FileCmd ε β} {V : α → Prop} {o : Outcome ε α}
    {R : β → Disk → Prop} (hx : OnlyReads x V) (h : Reads x d o) (hcut : I d) (herror : E d)
    (hf : ∀ a, o = .ok a → WarySafe I E (f a) R d) : WarySafe I E (x >>= f) R d := by
  have hrun : Prog.Safe FileOp.wary I x (fun o' d' => o' = o ∧ d' = d) d := by
    have ho : (Prog.run FileOp.handle x d).1 = o := h.outcome
    rw [← ho]
    unfold OnlyReads Cmd.Only at hx
    clear h ho
    induction x with
    | pure o' => exact ⟨rfl, rfl⟩
    | step op next ih =>
      have hstays : (op.handle d).2 = d := hx.1.faulty_eq none d
      refine ⟨hcut, fun φ => ?_⟩
      rw [FileOp.wary_of_isRead hx.1, hstays, Prog.run, hstays]
      exact ih _ (hx.2 _)
  apply Prog.Safe.bind hrun
  rintro o' d' ⟨rfl, rfl⟩
  cases o' with
  | ok a => exact hf a rfl
  | error e => exact ⟨fun _ hb => (by cases hb), fun _ _ => herror⟩

end Fs

end Rust
