import SecureABE.Foundations.FileSystem

/-!
# Panics

Computations and programs that panic only with the messages of a set (`PanicsIn`), or never (`Calm`),
closed under everything that they are put together with. Of a program it is said for whatever the
replies to its operations, so it holds on every disk, on a device that fails and next to other programs.
-/

namespace Rust

variable {Op : Type} {Reply : Op → Type} {α β ε ε' : Type} {P Q : String → Prop}

namespace Outcome

/-- The computation panics with messages in `P` only. -/
def PanicsIn (P : String → Prop) (o : Outcome ε α) : Prop := ∀ msg, o = .error (.panic msg) → P msg

/-- The computation does not panic. -/
abbrev Calm (o : Outcome ε α) : Prop := PanicsIn (fun _ => False) o

theorem PanicsIn.mono {o : Outcome ε α} (h : PanicsIn P o) (hPQ : ∀ msg, P msg → Q msg) :
    PanicsIn Q o := fun msg ho => hPQ msg (h msg ho)

theorem Calm.panicsIn {o : Outcome ε α} (h : Calm o) : PanicsIn P o := PanicsIn.mono h fun _ => False.elim

theorem calm_ok (a : α) : Calm (.ok a : Outcome ε α) := fun _ h => by cases h

theorem calm_err (e : ε) : Calm (err e : Outcome ε α) := fun _ h => by cases h

theorem calm_okOr (e : ε) (x : Option α) : Calm (okOr e x) := by
  cases x with
  | none => exact calm_err e
  | some a => exact calm_ok a

theorem calm_ofExcept (f : ε' → ε) (x : Except ε' α) : Calm (ofExcept f x) := by
  cases x with
  | error e => exact calm_err (f e)
  | ok a => exact calm_ok a

theorem PanicsIn.bind {x : Outcome ε α} {f : α → Outcome ε β} (h : PanicsIn P x)
    (hf : ∀ a, x = .ok a → PanicsIn P (f a)) : PanicsIn P (x >>= f) := by
  intro msg he
  cases x with
  | error e => exact h msg (congrArg Except.error (Except.error.inj he))
  | ok a => exact hf a rfl msg he

theorem panicsIn_mapErr {f : ε → ε'} {x : Outcome ε α} : PanicsIn P (mapErr f x) ↔ PanicsIn P x := by
  rcases x with (e | msg) | a
  · exact iff_of_true (calm_err (f e)).panicsIn (calm_err e).panicsIn
  · constructor
    · intro h msg' he
      cases he
      exact h _ rfl
    · intro h msg' he
      cases he
      exact h _ rfl
  · exact iff_of_true (calm_ok a).panicsIn (calm_ok a).panicsIn

theorem PanicsIn.mapErr {f : ε → ε'} {x : Outcome ε α} (h : PanicsIn P x) : PanicsIn P (mapErr f x) :=
  panicsIn_mapErr.2 h

theorem PanicsIn.mapList {f : α → Outcome ε β} {as : List α} (h : ∀ a ∈ as, PanicsIn P (f a)) :
    PanicsIn P (mapList f as) := by
  induction as with
  | nil => exact (calm_ok []).panicsIn
  | cons a as ih =>
    refine (h a List.mem_cons_self).bind fun b _ => ?_
    refine (ih fun a' ha' => h a' (List.mem_cons_of_mem a ha')).bind fun bs _ => ?_
    exact (calm_ok (b :: bs)).panicsIn

theorem PanicsIn.ite {p : Prop} [Decidable p] {x y : Outcome ε α} (hx : PanicsIn P x)
    (hy : PanicsIn P y) : PanicsIn P (if p then x else y) := by
  split_ifs
  · exact hx
  · exact hy

end Outcome

namespace Cmd

/-- The program panics with messages in `P` only, whatever the replies. -/
def PanicsIn (P : String → Prop) (x : Cmd Reply ε α) : Prop :=
  ∀ es msg, Prog.Performs x es (.error (.panic msg)) → P msg

/-- The program does not panic, whatever the replies. -/
abbrev Calm (x : Cmd Reply ε α) : Prop := PanicsIn (fun _ => False) x

theorem PanicsIn.mono {x : Cmd Reply ε α} (h : PanicsIn P x) (hPQ : ∀ msg, P msg → Q msg) :
    PanicsIn Q x := fun es msg hx => hPQ msg (h es msg hx)

theorem Calm.panicsIn {x : Cmd Reply ε α} (h : Calm x) : PanicsIn P x :=
  PanicsIn.mono h fun _ => False.elim

theorem panicsIn_ofOutcome {o : Outcome ε α} (h : o.PanicsIn P) :
    PanicsIn P (ofOutcome o : Cmd Reply ε α) :=
  fun _ msg hp => h msg (Prog.performs_pure.1 hp).2.symm

theorem calm_pure (a : α) : Calm (Pure.pure a : Cmd Reply ε α) :=
  panicsIn_ofOutcome (Outcome.calm_ok a)

theorem calm_perform (op : Op) : Calm (perform op : Cmd Reply ε (Reply op)) := by
  intro es msg hp
  obtain ⟨r, es', -, hp'⟩ := Prog.performs_step.1 hp
  cases (Prog.performs_pure.1 hp').2

/-- **A sequence that panics** does so in its first part, or in the second after a value of the first. -/
theorem performs_bind_panic {x : Cmd Reply ε α} {f : α → Cmd Reply ε β} {es : List (Event Reply)}
    {msg : String} : Prog.Performs (x >>= f : Cmd Reply ε β) es (.error (.panic msg)) ↔
      Prog.Performs x es (.error (.panic msg)) ∨
        ∃ es₁ a es₂, es = es₁ ++ es₂ ∧ Prog.Performs x es₁ (.ok a) ∧
          Prog.Performs (f a) es₂ (.error (.panic msg)) := by
  refine Prog.performs_bind.trans ⟨?_, ?_⟩
  · rintro ⟨es₁, o, es₂, rfl, h, h'⟩
    cases o with
    | ok a => exact Or.inr ⟨es₁, a, es₂, rfl, h, h'⟩
    | error e =>
      obtain ⟨rfl, he⟩ := Prog.performs_pure.1 h'
      obtain rfl := Except.error.inj he
      rw [List.append_nil]
      exact Or.inl h
  · rintro (h | ⟨es₁, a, es₂, rfl, h, h'⟩)
    · exact ⟨es, _, [], (List.append_nil es).symm, h, .pure _⟩
    · exact ⟨es₁, .ok a, es₂, rfl, h, h'⟩

theorem performs_mapErr_ok {f : ε → ε'} {x : Cmd Reply ε α} {es : List (Event Reply)} {a : α}
    (h : Prog.Performs (mapErr f x) es (.ok a)) : Prog.Performs x es (.ok a) := by
  obtain ⟨es₁, o, es₂, rfl, hx, hend⟩ := Prog.performs_bind.1 h
  obtain ⟨rfl, ho⟩ := Prog.performs_pure.1 hend
  rw [List.append_nil, ← Outcome.mapErr_eq_ok.1 ho.symm]
  exact hx

theorem PanicsIn.bind {x : Cmd Reply ε α} {f : α → Cmd Reply ε β} (h : PanicsIn P x)
    (hf : ∀ a, PanicsIn P (f a)) : PanicsIn P (x >>= f) := by
  intro es msg hp
  rcases performs_bind_panic.1 hp with hx | ⟨es₁, a, es₂, -, -, ha⟩
  · exact h es msg hx
  · exact hf a es₂ msg ha

/-- After an outcome, the rest counts for its value only. -/
theorem PanicsIn.ofOutcome_bind {o : Outcome ε α} {f : α → Cmd Reply ε β} (h : o.PanicsIn P)
    (hf : ∀ a, o = .ok a → PanicsIn P (f a)) : PanicsIn P (ofOutcome o >>= f) := by
  cases o with
  | error e => exact panicsIn_ofOutcome fun msg he => h msg (congrArg Except.error (Except.error.inj he))
  | ok a => exact hf a rfl

/-- What an outcome becomes goes on with its panics, and has none of its own. -/
theorem PanicsIn.map {x : Cmd Reply ε α} {g : Outcome ε α → Outcome ε' β}
    (hg : ∀ o, Outcome.PanicsIn P o → (g o).PanicsIn P) (h : PanicsIn P x) :
    PanicsIn P (Prog.bind x fun o => .pure (g o) : Cmd Reply ε' β) := by
  intro es msg hp
  obtain ⟨es₁, o, es₂, rfl, hx, hend⟩ := Prog.performs_bind.1 hp
  obtain ⟨rfl, hgo⟩ := Prog.performs_pure.1 hend
  refine hg o ?_ msg hgo.symm
  rintro msg' rfl
  exact h es₁ msg' hx

theorem PanicsIn.mapErr {f : ε → ε'} {x : Cmd Reply ε α} (h : PanicsIn P x) : PanicsIn P (mapErr f x) :=
  h.map fun _ ho => ho.mapErr

theorem PanicsIn.attempt {x : Cmd Reply ε α} (h : PanicsIn P x) :
    PanicsIn P (attempt x : Cmd Reply ε' (Except ε α)) := by
  refine h.map fun o ho => ?_
  rcases o with (e | msg) | a
  · exact (Outcome.calm_ok _).panicsIn
  · intro msg' he
    cases he
    exact ho msg rfl
  · exact (Outcome.calm_ok _).panicsIn

theorem PanicsIn.ite {p : Prop} [Decidable p] {x y : Cmd Reply ε α} (hx : PanicsIn P x)
    (hy : PanicsIn P y) : PanicsIn P (if p then x else y) := by
  split_ifs
  · exact hx
  · exact hy

end Cmd

/-! ## Files -/

namespace Fs

theorem calm_replied (r : Except IoError α) : (replied r).Calm := by
  cases r with
  | error e => exact Outcome.calm_err e
  | ok a => exact Outcome.calm_ok a

theorem calm_textOf (r : Except IoError Bytes) : (textOf r).Calm :=
  (calm_replied r).bind fun _ _ => Outcome.calm_okOr _ _

theorem calm_readToString (p : Path) : Cmd.Calm (readToString p) :=
  (Cmd.calm_perform _).bind fun r => Cmd.panicsIn_ofOutcome (calm_textOf r)

theorem calm_read (p : Path) : Cmd.Calm (read p) :=
  (Cmd.calm_perform _).bind fun r => Cmd.panicsIn_ofOutcome (calm_replied r)

theorem calm_write (p : Path) (b : Bytes) : Cmd.Calm (write p b) :=
  (Cmd.calm_perform _).bind fun r => Cmd.panicsIn_ofOutcome (calm_replied r)

theorem calm_exist (p : Path) : Cmd.Calm (exist p : FileCmd ε Bool) := Cmd.calm_perform _

theorem calm_createDirAll (p : Path) : Cmd.Calm (createDirAll p) :=
  (Cmd.calm_perform _).bind fun r => Cmd.panicsIn_ofOutcome (calm_replied r)

theorem calm_openAppend (p : Path) : Cmd.Calm (openAppend p) :=
  (Cmd.calm_perform _).bind fun r => Cmd.panicsIn_ofOutcome (calm_replied r)

theorem calm_append (p : Path) (b : Bytes) : Cmd.Calm (append p b) :=
  (Cmd.calm_perform _).bind fun r => Cmd.panicsIn_ofOutcome (calm_replied r)

theorem calm_readDir (p : Path) : Cmd.Calm (readDir p) :=
  (Cmd.calm_perform _).bind fun r => Cmd.panicsIn_ofOutcome (calm_replied r)

end Fs

end Rust
