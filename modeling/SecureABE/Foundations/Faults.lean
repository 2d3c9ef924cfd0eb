import SecureABE.Foundations.Program

/-!
# Programs on a device that may fail

On a `Device` what an operation does depends on a fault that comes with it. A program runs on a list of
faults, one for each of its operations, and is cut off when there are none left (`runFaulty`).
`Device.logged` keeps account of what was done.

`Prog.Safe` is the condition on a program and a state under which a cut-off run ends in a state of `I`,
and a complete run ends as a postcondition says, whatever the faults (`Safe.of_run`). It is proved part
by part (`Safe.bind`), and for programs whose operations are restricted from what one operation does
(`Only.safe`). `Cmd.Safe` is the same for programs that can fail, with a second postcondition for
failures.
-/

namespace Rust

variable {Op : Type} {Reply : Op → Type} {Φ S α β : Type}

/-- What an operation does under a fault: the reply, and the state after it. -/
abbrev Device (Reply : Op → Type) (Φ S : Type) := Φ → (op : Op) → S → Reply op × S

/-- The device with a log of the operations and their faults. -/
def Device.logged (device : Device Reply Φ S) : Device Reply Φ (S × List (Op × Φ)) :=
  fun φ op s => ((device φ op s.1).1, (device φ op s.1).2, s.2 ++ [(op, φ)])

namespace Prog

/-- The value of a program, none if it is cut off, and the state it leaves. -/
def runFaulty (device : Device Reply Φ S) : Prog Reply α → List Φ → S → Option α × S
  | .pure a, _, s => (some a, s)
  | .step _ _, [], s => (none, s)
  | .step op next, φ :: φs, s => runFaulty device (next (device φ op s).1) φs (device φ op s).2

/-- With a fault that is none, as long as there are enough of them, the first part of a program is the
run alone. -/
theorem exists_runFaulty_bind {device : Device Reply Φ S} {handle : (op : Op) → S → Reply op × S}
    {φ : Φ} (hφ : ∀ op s, device φ op s = handle op s) (p : Prog Reply α) (s : S) :
    ∃ n, ∀ (f : α → Prog Reply β) (φs : List Φ),
      (p.bind f).runFaulty device (List.replicate n φ ++ φs) s =
        (f (p.run handle s).1).runFaulty device φs (p.run handle s).2 := by
  induction p generalizing s with
  | pure a => exact ⟨0, fun f φs => rfl⟩
  | step op next ih =>
    obtain ⟨n, hn⟩ := ih (handle op s).1 (handle op s).2
    refine ⟨n + 1, fun f φs => ?_⟩
    rw [List.replicate_succ, List.cons_append, bind, runFaulty, hφ, hn, run]

theorem exists_runFaulty_replicate {device : Device Reply Φ S} {handle : (op : Op) → S → Reply op × S}
    {φ : Φ} (hφ : ∀ op s, device φ op s = handle op s) (p : Prog Reply α) (s : S) :
    ∃ n, p.runFaulty device (List.replicate n φ) s = (some (p.run handle s).1, (p.run handle s).2) := by
  obtain ⟨n, hn⟩ := exists_runFaulty_bind hφ p s
  have hwhole := hn .pure []
  rw [bind_pure, List.append_nil] at hwhole
  exact ⟨n, hwhole⟩

/-- The log changes nothing. -/
theorem runFaulty_logged (device : Device Reply Φ S) (p : Prog Reply α) (φs : List Φ)
    (s : S × List (Op × Φ)) :
    (p.runFaulty device.logged φs s).1 = (p.runFaulty device φs s.1).1 ∧
      (p.runFaulty device.logged φs s).2.1 = (p.runFaulty device φs s.1).2 := by
  induction p generalizing φs s with
  | pure a => exact ⟨rfl, rfl⟩
  | step op next ih =>
    cases φs with
    | nil => exact ⟨rfl, rfl⟩
    | cons φ φs => exact ih _ φs _

variable (device : Device Reply Φ S) (I : S → Prop)

/-- Where the program can be cut off `I` holds, and at its end the postcondition. -/
def Safe : Prog Reply α → (α → S → Prop) → S → Prop
  | .pure a, Q, s => Q a s
  | .step op next, Q, s => I s ∧ ∀ φ, Safe (next (device φ op s).1) Q (device φ op s).2

variable {device I}

/-- **Safety is what it says** about every run. -/
theorem Safe.of_run {p : Prog Reply α} {Q : α → S → Prop} {s : S} (h : p.Safe device I Q s)
    (φs : List Φ) :
    ((p.runFaulty device φs s).1 = none → I (p.runFaulty device φs s).2) ∧
      ∀ a, (p.runFaulty device φs s).1 = some a → Q a (p.runFaulty device φs s).2 := by
  induction p generalizing φs s with
  | pure a => exact ⟨fun hcut => (by cases hcut), fun b hb => Option.some.inj hb ▸ h⟩
  | step op next ih =>
    cases φs with
    | nil => exact ⟨fun _ => h.1, fun a ha => (by cases ha)⟩
    | cons φ φs => exact ih _ (h.2 φ) φs

theorem Safe.mono {J : S → Prop} {p : Prog Reply α} {Q R : α → S → Prop} {s : S}
    (h : p.Safe device I Q s) (hIJ : ∀ s, I s → J s) (hQR : ∀ a s, Q a s → R a s) :
    p.Safe device J R s := by
  induction p generalizing s with
  | pure a => exact hQR a s h
  | step op next ih => exact ⟨hIJ s h.1, fun φ => ih _ (h.2 φ)⟩

/-- A sequence, part by part. -/
theorem Safe.bind {p : Prog Reply α} {f : α → Prog Reply β} {Q : α → S → Prop} {R : β → S → Prop} {s : S}
    (h : p.Safe device I Q s) (hf : ∀ a s, Q a s → (f a).Safe device I R s) :
    (p.bind f).Safe device I R s := by
  induction p generalizing s with
  | pure a => exact hf a s h
  | step op next ih => exact ⟨h.1, fun φ => ih _ (h.2 φ)⟩

/-! ### Restricted operations -/

/-- All operations that the program may perform have a property, and all its values have one, whatever
the replies. -/
def Only (P : Op → Prop) : Prog Reply α → (α → Prop) → Prop
  | .pure a, V => V a
  | .step op next, V => P op ∧ ∀ r, (next r).Only P V

theorem Only.bind {P : Op → Prop} {p : Prog Reply α} {f : α → Prog Reply β} {V : α → Prop}
    {W : β → Prop} (h : p.Only P V) (hf : ∀ a, V a → (f a).Only P W) : (p.bind f).Only P W := by
  induction p with
  | pure a => exact hf a h
  | step op next ih => exact ⟨h.1, fun r => ih r (h.2 r)⟩

theorem Only.mono {P P' : Op → Prop} {p : Prog Reply α} {V W : α → Prop} (h : p.Only P V)
    (hP : ∀ op, P op → P' op) (hV : ∀ a, V a → W a) : p.Only P' W := by
  induction p with
  | pure a => exact hV a h
  | step op next ih => exact ⟨hP op h.1, fun r => ih r (h.2 r)⟩

/-- Devices that treat the operations of a program alike. -/
theorem Safe.congr_device {device' : Device Reply Φ S} {P : Op → Prop} {p : Prog Reply α} {V : α → Prop}
    (h : p.Only P V) (hop : ∀ φ op s, P op → device' φ op s = device φ op s) {Q : α → S → Prop} {s : S}
    (hs : p.Safe device I Q s) : p.Safe device' I Q s := by
  induction p generalizing s with
  | pure a => exact hs
  | step op next ih =>
    refine ⟨hs.1, fun φ => ?_⟩
    rw [hop φ op s h.1]
    exact ih _ (h.2 _) (hs.2 φ)

/-- A relation between states in which the operations of a program reply alike, and which they keep, holds
after the program. -/
theorem Only.related {P : Op → Prop} {p : Prog Reply α} {V : α → Prop} (h : p.Only P V) {R : S → S → Prop}
    (hop : ∀ φ op s s', P op → R s s' →
      (device φ op s).1 = (device φ op s').1 ∧ R (device φ op s).2 (device φ op s').2)
    {s s' : S} (hs : R s s') (φs : List Φ) :
    (p.runFaulty device φs s).1 = (p.runFaulty device φs s').1 ∧
      R (p.runFaulty device φs s).2 (p.runFaulty device φs s').2 := by
  induction p generalizing φs s s' with
  | pure a => exact ⟨rfl, hs⟩
  | step op next ih =>
    cases φs with
    | nil => exact ⟨rfl, hs⟩
    | cons φ φs =>
      obtain ⟨hreply, hafter⟩ := hop φ op s s' h.1 hs
      rw [runFaulty, runFaulty, ← hreply]
      exact ih _ (h.2 _) hafter φs

/-- What operations with the property keep, the program keeps. -/
theorem Only.safe {P : Op → Prop} {p : Prog Reply α} {V : α → Prop} (h : p.Only P V)
    (hop : ∀ φ op s, P op → I s → I (device φ op s).2) {s : S} (hs : I s) :
    p.Safe device I (fun a s => I s ∧ V a) s := by
  induction p generalizing s with
  | pure a => exact ⟨hs, h⟩
  | step op next ih => exact ⟨hs, fun φ => ih _ (h.2 _) (hop φ op s h.1 hs)⟩

end Prog

namespace Cmd

section Only

variable {ε ε' : Type} {P : Op → Prop} {V : α → Prop}

/-- `Prog.Only`, with a property of the values that are returned. -/
def Only (P : Op → Prop) (x : Cmd Reply ε α) (V : α → Prop) : Prop :=
  Prog.Only P x fun o => ∀ a, o = .ok a → V a

/-- An outcome of whose value nothing is said. -/
theorem only_outcome (o : Outcome ε α) : Only P (ofOutcome o : Cmd Reply ε α) fun _ => True :=
  fun _ _ => trivial

theorem only_pure {a : α} (h : V a) : Only P (Pure.pure a : Cmd Reply ε α) V :=
  fun _ ha => Except.ok.inj ha ▸ h

theorem only_perform {op : Op} (h : P op) :
    Only P (perform op : Cmd Reply ε (Reply op)) fun _ => True := ⟨h, fun _ _ _ => trivial⟩

theorem Only.bind {x : Cmd Reply ε α} {f : α → Cmd Reply ε β} {W : β → Prop} (h : Only P x V)
    (hf : ∀ a, V a → Only P (f a) W) : Only P (x >>= f) W :=
  Prog.Only.bind h fun o ho => by
    cases o with
    | ok a => exact hf a (ho a rfl)
    | error e => exact fun b hb => (by cases hb)

theorem Only.mapErr {f : ε → ε'} {x : Cmd Reply ε α} (h : Only P x V) :
    Only P (Cmd.mapErr f x) V :=
  Prog.Only.bind h fun _ ho a ha => ho a (Outcome.mapErr_eq_ok.1 ha)

theorem Only.attempt {x : Cmd Reply ε α} (h : Only P x V) :
    Only P (Cmd.attempt x : Cmd Reply ε' (Except ε α)) fun _ => True :=
  Prog.Only.bind h fun _ _ _ _ => trivial

theorem Only.ite {p : Prop} [Decidable p] {x y : Cmd Reply ε α} (hx : Only P x V) (hy : Only P y V) :
    Only P (if p then x else y) V := by
  split_ifs
  · exact hx
  · exact hy

theorem Only.mono {P' : Op → Prop} {x : Cmd Reply ε α} (h : Only P x V) (hP : ∀ op, P op → P' op) :
    Only P' x V := Prog.Only.mono h hP fun _ ho => ho

end Only

variable {ε ε' : Type} (device : Device Reply Φ S) (I E : S → Prop)

/-- `Prog.Safe` with the postcondition `Q` for a value that is returned and `E` for a failure. -/
def Safe (x : Cmd Reply ε α) (Q : α → S → Prop) (s : S) : Prop :=
  Prog.Safe device I x (fun o s => (∀ a, o = .ok a → Q a s) ∧ ∀ e, o = .error e → E s) s

variable {device I E}

/-- What holds wherever the program can be cut off, whenever it fails and at its end holds after every
run. -/
theorem Safe.of_run {x : Cmd Reply ε α} {s : S} (h : Safe device I I x (fun _ => I) s) (φs : List Φ) :
    I (Prog.runFaulty device x φs s).2 := by
  obtain ⟨hcut, hend⟩ := Prog.Safe.of_run h φs
  cases hrun : (Prog.runFaulty device x φs s).1 with
  | none => exact hcut hrun
  | some o =>
    cases o with
    | ok a => exact (hend _ hrun).1 a rfl
    | error e => exact (hend _ hrun).2 e rfl

theorem Safe.mono {J E' : S → Prop} {x : Cmd Reply ε α} {Q R : α → S → Prop} {s : S}
    (h : Safe device I E x Q s) (hIJ : ∀ s, I s → J s) (hE : ∀ s, E s → E' s)
    (hQR : ∀ a s, Q a s → R a s) : Safe device J E' x R s :=
  Prog.Safe.mono h hIJ fun _ s hQ => ⟨fun a ha => hQR a s (hQ.1 a ha), fun e he => hE s (hQ.2 e he)⟩

theorem Only.safe {P : Op → Prop} {x : Cmd Reply ε α} {V : α → Prop} (h : Only P x V)
    (hop : ∀ φ op s, P op → I s → I (device φ op s).2) {s : S} (hs : I s) :
    Safe device I I x (fun a s => I s ∧ V a) s :=
  (Prog.Only.safe h hop hs).mono (fun _ hI => hI) fun _ _ ho =>
    ⟨fun a ha => ⟨ho.1, ho.2 a ha⟩, fun _ _ => ho.1⟩

theorem Safe.bind {x : Cmd Reply ε α} {f : α → Cmd Reply ε β} {Q : α → S → Prop} {R : β → S → Prop}
    {s : S} (h : Safe device I E x Q s) (hf : ∀ a s, Q a s → Safe device I E (f a) R s) :
    Safe device I E (x >>= f) R s := by
  apply Prog.Safe.bind h
  intro o s hQ
  cases o with
  | error e => exact ⟨fun a ha => (by cases ha), fun _ _ => hQ.2 e rfl⟩
  | ok a => exact hf a s (hQ.1 a rfl)

theorem safe_ofOutcome {o : Outcome ε α} {Q : α → S → Prop} {s : S} (hok : ∀ a, o = .ok a → Q a s)
    (herror : E s) : Safe device I E (ofOutcome o : Cmd Reply ε α) Q s := ⟨hok, fun _ _ => herror⟩

theorem safe_pure {a : α} {Q : α → S → Prop} {s : S} (h : Q a s) :
    Safe device I E (Pure.pure a : Cmd Reply ε α) Q s :=
  ⟨fun _ ha => Except.ok.inj ha ▸ h, fun _ he => (by cases he)⟩

theorem Safe.mapErr {f : ε → ε'} {x : Cmd Reply ε α} {Q : α → S → Prop} {s : S}
    (h : Safe device I E x Q s) : Safe device I E (Cmd.mapErr f x) Q s := by
  refine Prog.Safe.bind h fun o s hQ => ⟨fun a ha => hQ.1 a (Outcome.mapErr_eq_ok.1 ha), fun e he => ?_⟩
  cases o with
  | ok a => cases he
  | error e' => exact hQ.2 e' rfl

/-- A failure that is caught is a value. -/
theorem Safe.attempt {x : Cmd Reply ε α} {Q : α → S → Prop} {s : S} (h : Safe device I E x Q s) :
    Safe device I E (Cmd.attempt x : Cmd Reply ε' (Except ε α))
      (fun r s => (∀ a, r = .ok a → Q a s) ∧ ∀ e, r = .error e → E s) s := by
  refine Prog.Safe.bind h fun o s hQ => ⟨fun r hr => ?_, fun e he => ?_⟩
  · rcases o with (e | msg) | a
    · obtain rfl := Except.ok.inj hr
      exact ⟨fun a ha => (by cases ha), fun _ _ => hQ.2 _ rfl⟩
    · cases hr
    · obtain rfl := Except.ok.inj hr
      exact ⟨fun b hb => hQ.1 b (congrArg Except.ok (Except.ok.inj hb)), fun e he => (by cases he)⟩
  · rcases o with (e' | msg) | a
    · cases he
    · exact hQ.2 _ rfl
    · cases he

theorem Safe.ite {p : Prop} [Decidable p] {x y : Cmd Reply ε α} {Q : α → S → Prop} {s : S}
    (hx : p → Safe device I E x Q s) (hy : ¬ p → Safe device I E y Q s) :
    Safe device I E (if p then x else y) Q s := by
  split_ifs with hp
  · exact hx hp
  · exact hy hp

end Cmd

end Rust
