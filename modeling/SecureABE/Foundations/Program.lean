import SecureABE.Foundations.Outcome

/-!
# Programs with effects

A program is a tree of operations: it ends with a value, or performs an operation and goes on with
the reply to it. What an operation does is not part of the program. It is given by a handler, which
replies to an operation in a state and changes the state.

* `Prog.run` runs a program alone, from a state to a value and a state.
* `Prog.Performs` lists what a program does (`Event`) whatever the replies; `Explains` says that the
  replies are those of a handler. Together they are `run` again (`run_eq_iff`), and they also make
  sense when the events of several programs alternate.

`Cmd` adds failure: a program whose value is an `Outcome`, with `?` as its bind.
-/

namespace Rust

variable {Op : Type} {Reply : Op → Type} {S α β γ : Type}

/-- A program that performs operations `op : Op`, each of which is answered by a `Reply op`. -/
inductive Prog (Reply : Op → Type) (α : Type) : Type
  | pure (a : α)
  | step (op : Op) (next : Reply op → Prog Reply α)

namespace Prog

/-- One program after another. -/
def bind : Prog Reply α → (α → Prog Reply β) → Prog Reply β
  | .pure a, f => f a
  | .step op next, f => .step op fun r => (next r).bind f

theorem bind_assoc (p : Prog Reply α) (f : α → Prog Reply β) (g : β → Prog Reply γ) :
    (p.bind f).bind g = p.bind fun a => (f a).bind g := by
  induction p with
  | pure a => rfl
  | step op next ih => exact congrArg (step op) (funext ih)

theorem bind_pure (p : Prog Reply α) : p.bind .pure = p := by
  induction p with
  | pure a => rfl
  | step op next ih => exact congrArg (step op) (funext ih)

/-- The program that performs one operation. -/
def perform (op : Op) : Prog Reply (Reply op) := .step op .pure

/-! ## Running alone -/

variable (handle : (op : Op) → S → Reply op × S)

/-- The value of a program and the state it leaves. -/
def run : Prog Reply α → S → α × S
  | .pure a, s => (a, s)
  | .step op next, s => (next (handle op s).1).run (handle op s).2

theorem run_bind (p : Prog Reply α) (f : α → Prog Reply β) (s : S) :
    (p.bind f).run handle s = (f (p.run handle s).1).run handle (p.run handle s).2 := by
  induction p generalizing s with
  | pure a => rfl
  | step op next ih => exact ih _ _

end Prog

/-! ## Events -/

/-- An operation with the reply to it. -/
structure Event {Op : Type} (Reply : Op → Type) where
  op : Op
  reply : Reply op

/-- A program performs a list of events and ends with a value. -/
inductive Prog.Performs : Prog Reply α → List (Event Reply) → α → Prop
  | pure (a : α) : Performs (.pure a) [] a
  | step {op : Op} {next : Reply op → Prog Reply α} {r : Reply op} {es : List (Event Reply)} {a : α}
      (h : Performs (next r) es a) : Performs (.step op next) (⟨op, r⟩ :: es) a

/-- The replies of a list of events are those of a handler, on the way from a state to another. -/
def Explains (handle : (op : Op) → S → Reply op × S) : S → List (Event Reply) → S → Prop
  | s, [], s' => s' = s
  | s, e :: es, s' => (handle e.op s).1 = e.reply ∧ Explains handle (handle e.op s).2 es s'

theorem explains_append {handle : (op : Op) → S → Reply op × S} {s s' : S}
    {es es' : List (Event Reply)} :
    Explains handle s (es ++ es') s' ↔ ∃ t, Explains handle s es t ∧ Explains handle t es' s' := by
  induction es generalizing s with
  | nil => simp [Explains]
  | cons e es ih =>
    simp only [List.cons_append, Explains, ih]
    constructor
    · rintro ⟨h, t, ht, h'⟩
      exact ⟨t, ⟨h, ht⟩, h'⟩
    · rintro ⟨t, ⟨h, ht⟩, h'⟩
      exact ⟨h, t, ht, h'⟩

namespace Prog

theorem performs_pure {a b : α} {es : List (Event Reply)} :
    Performs (.pure a : Prog Reply α) es b ↔ es = [] ∧ b = a := by
  constructor
  · rintro ⟨⟩
    exact ⟨rfl, rfl⟩
  · rintro ⟨rfl, rfl⟩
    exact .pure b

theorem performs_step {op : Op} {next : Reply op → Prog Reply α} {b : α} {es : List (Event Reply)} :
    Performs (.step op next) es b ↔ ∃ r es', es = ⟨op, r⟩ :: es' ∧ Performs (next r) es' b := by
  constructor
  · intro h
    cases h with
    | step h => exact ⟨_, _, rfl, h⟩
  · rintro ⟨r, es', rfl, h⟩
    exact .step h

theorem performs_bind {p : Prog Reply α} {f : α → Prog Reply β} {b : β} {es : List (Event Reply)} :
    Performs (p.bind f) es b ↔
      ∃ es₁ a es₂, es = es₁ ++ es₂ ∧ Performs p es₁ a ∧ Performs (f a) es₂ b := by
  induction p generalizing es with
  | pure a =>
    constructor
    · intro h
      exact ⟨[], a, es, rfl, .pure a, h⟩
    · rintro ⟨es₁, a', es₂, rfl, h₁, h₂⟩
      obtain ⟨rfl, rfl⟩ := performs_pure.1 h₁
      exact h₂
  | step op next ih =>
    constructor
    · intro h
      obtain ⟨r, es', rfl, h'⟩ := performs_step.1 h
      obtain ⟨es₁, a, es₂, rfl, h₁, h₂⟩ := (ih r).1 h'
      exact ⟨⟨op, r⟩ :: es₁, a, es₂, rfl, .step h₁, h₂⟩
    · rintro ⟨es₁, a, es₂, rfl, h₁, h₂⟩
      obtain ⟨r, es', rfl, h'⟩ := performs_step.1 h₁
      exact .step ((ih r).2 ⟨es', a, es₂, rfl, h', h₂⟩)

/-- **Running** a program alone is performing events that the handler explains. -/
theorem run_eq_iff {handle : (op : Op) → S → Reply op × S} {p : Prog Reply α} {s s' : S} {a : α} :
    p.run handle s = (a, s') ↔ ∃ es, Performs p es a ∧ Explains handle s es s' := by
  induction p generalizing s with
  | pure b =>
    constructor
    · rintro ⟨⟩
      exact ⟨[], .pure _, rfl⟩
    · rintro ⟨es, h, hs⟩
      obtain ⟨rfl, rfl⟩ := performs_pure.1 h
      unfold Explains at hs
      rw [run, hs]
  | step op next ih =>
    rw [run, ih]
    constructor
    · rintro ⟨es, h, hs⟩
      exact ⟨_ :: es, .step h, rfl, hs⟩
    · rintro ⟨es, h, hs⟩
      obtain ⟨r, es', rfl, h'⟩ := performs_step.1 h
      obtain ⟨hr, hs⟩ := hs
      exact ⟨es', hr ▸ h', hs⟩

end Prog

/-! ## Fallible programs -/

/-- A program that returns, fails or panics. -/
def Cmd (Reply : Op → Type) (ε α : Type) : Type := Prog Reply (Outcome ε α)

namespace Cmd

variable {ε ε' : Type}

/-- A program without operations. -/
def ofOutcome (o : Outcome ε α) : Cmd Reply ε α := Prog.pure o

/-- What comes after the first part of a sequence: the second, unless the first has failed. -/
def follow (f : α → Cmd Reply ε β) : Outcome ε α → Prog Reply (Outcome ε β)
  | .ok a => f a
  | .error e => .pure (.error e)

instance : Monad (Cmd Reply ε) where
  pure a := ofOutcome (.ok a)
  bind x f := Prog.bind x (follow f)

/-- A failure ends a sequence, however it is put together. -/
instance : LawfulMonad (Cmd Reply ε) := LawfulMonad.mk' _
  (fun x => by
    refine (congrArg (Prog.bind x) (funext fun o => ?_)).trans (Prog.bind_pure x)
    cases o <;> rfl)
  (fun a f => rfl)
  (fun x f g => by
    apply (Prog.bind_assoc x (follow f) (follow g)).trans
    refine congrArg (Prog.bind x) (funext fun o => ?_)
    cases o <;> rfl)

/-- The program that performs an operation which cannot fail. -/
def perform (op : Op) : Cmd Reply ε (Reply op) := .step op fun r => .pure (.ok r)

/-- `Result::map_err`. -/
def mapErr (f : ε → ε') (x : Cmd Reply ε α) : Cmd Reply ε' α :=
  Prog.bind x fun o => .pure (o.mapErr f)

/-- The `Result` of an outcome as a value; a panic goes on. -/
def caught : Outcome ε α → Outcome ε' (Except ε α)
  | .ok a => .ok (.ok a)
  | .error (.error e) => .ok (.error e)
  | .error (.panic msg) => .error (.panic msg)

theorem caught_eq_ok_ok {o : Outcome ε α} {a : α} :
    (caught o : Outcome ε' (Except ε α)) = .ok (.ok a) ↔ o = .ok a := by
  rcases o with (e | msg) | b <;> simp [caught]

/-- The `Result` of a computation as a value, for `match` and `if let`. -/
def attempt (x : Cmd Reply ε α) : Cmd Reply ε' (Except ε α) := Prog.bind x fun o => .pure (caught o)

/-! ### Running alone -/

variable (handle : (op : Op) → S → Reply op × S)

/-- The outcome of a program and the state it leaves. -/
def exec (x : Cmd Reply ε α) (s : S) : Outcome ε α × S := Prog.run handle x s

/-- The run of a sequence after its first part. -/
def andThen : Outcome ε α × S → (α → S → Outcome ε β × S) → Outcome ε β × S
  | (.ok a, s), f => f a s
  | (.error e, s), _ => (.error e, s)

@[simp] theorem andThen_ok (a : α) (s : S) (f : α → S → Outcome ε β × S) :
    andThen (.ok a, s) f = f a s := rfl

@[simp] theorem andThen_error (e : Failure ε) (s : S) (f : α → S → Outcome ε β × S) :
    andThen (.error e, s) f = (.error e, s) := rfl

@[simp] theorem exec_ofOutcome (o : Outcome ε α) (s : S) :
    exec handle (ofOutcome o : Cmd Reply ε α) s = (o, s) := rfl

@[simp] theorem exec_pure (a : α) (s : S) :
    exec handle (pure a : Cmd Reply ε α) s = (.ok a, s) := rfl

@[simp] theorem exec_perform (op : Op) (s : S) :
    exec handle (perform op : Cmd Reply ε (Reply op)) s = (.ok (handle op s).1, (handle op s).2) := rfl

theorem exec_bind (x : Cmd Reply ε α) (f : α → Cmd Reply ε β) (s : S) :
    exec handle (x >>= f) s = andThen (exec handle x s) fun a s => exec handle (f a) s := by
  apply (Prog.run_bind handle x (follow f) s).trans
  rw [exec]
  rcases Prog.run handle x s with ⟨e | a, s'⟩ <;> rfl

theorem exec_mapErr (f : ε → ε') (x : Cmd Reply ε α) (s : S) :
    exec handle (mapErr f x) s = ((exec handle x s).1.mapErr f, (exec handle x s).2) :=
  Prog.run_bind handle x _ s

theorem exec_attempt (x : Cmd Reply ε α) (s : S) :
    exec handle (attempt x : Cmd Reply ε' (Except ε α)) s =
      (caught (exec handle x s).1, (exec handle x s).2) :=
  Prog.run_bind handle x _ s

end Cmd

end Rust
