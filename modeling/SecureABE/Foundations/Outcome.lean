import Mathlib.Data.List.Forall2

/-!
# Outcomes of Rust computations

A computation returns a value, returns the error of its `Result`, or panics. `Failure` is what it
ends with when there is no value and `Outcome` the whole result; `?` is the bind of `Except`, so a
panic propagates as an error does, and `attempt` is what `match` and `if let` on a `Result` see:
the error, but never the panic.
-/

namespace Rust

/-- How a computation ends without a value. -/
inductive Failure (ε : Type*)
  /-- The `Err` of a `Result`. -/
  | error (e : ε)
  /-- A panic, with its message. -/
  | panic (msg : String)
  deriving DecidableEq, Repr

/-- The result of a computation whose `Result` has the error type `ε`. -/
abbrev Outcome (ε α : Type*) := Except (Failure ε) α

namespace Outcome

variable {ε ε' α β : Type*}

/-- `Err(e)`. -/
def err (e : ε) : Outcome ε α := .error (.error e)

/-- `Option::expect`. -/
def expect (msg : String) : Option α → Outcome ε α
  | some a => .ok a
  | none => .error (.panic msg)

/-- `Option::ok_or`. -/
def okOr (e : ε) : Option α → Outcome ε α
  | some a => .ok a
  | none => err e

/-- `Result::map_err`. -/
def mapErr (f : ε → ε') : Outcome ε α → Outcome ε' α
  | .ok a => .ok a
  | .error (.error e) => err (f e)
  | .error (.panic msg) => .error (.panic msg)

/-- A result of another library, its error taken into the error type here. -/
def ofExcept (f : ε' → ε) : Except ε' α → Outcome ε α
  | .ok a => .ok a
  | .error e => err (f e)

/-- Every call of a list in order, the first failure ending the loop. -/
def mapList (f : α → Outcome ε β) : List α → Outcome ε (List β)
  | [] => .ok []
  | a :: as => do
    let b ← f a
    let bs ← mapList f as
    .ok (b :: bs)

@[simp] theorem expect_some (msg : String) (a : α) : (expect msg (some a) : Outcome ε α) = .ok a := rfl

@[simp] theorem okOr_some (e : ε) (a : α) : okOr e (some a) = .ok a := rfl

@[simp] theorem okOr_none (e : ε) : (okOr e none : Outcome ε α) = err e := rfl

@[simp] theorem mapErr_ok (f : ε → ε') (a : α) : mapErr f (.ok a) = .ok a := rfl

@[simp] theorem mapErr_err (f : ε → ε') (e : ε) : (mapErr f (err e) : Outcome ε' α) = err (f e) := rfl

@[simp] theorem ofExcept_ok (f : ε' → ε) (a : α) : ofExcept f (.ok a) = .ok a := rfl

@[simp] theorem ofExcept_error (f : ε' → ε) (e : ε') :
    (ofExcept f (.error e) : Outcome ε α) = err (f e) := rfl

theorem mapErr_eq_ok {f : ε → ε'} {x : Outcome ε α} {a : α} : mapErr f x = .ok a ↔ x = .ok a := by
  rcases x with (e | msg) | b <;> simp [mapErr, err]

theorem okOr_eq_ok {e : ε} {x : Option α} {a : α} : okOr e x = .ok a ↔ x = some a := by
  cases x <;> simp [okOr, err]

theorem ofExcept_eq_ok {f : ε' → ε} {x : Except ε' α} {a : α} :
    ofExcept f x = .ok a ↔ x = .ok a := by
  cases x <;> simp [ofExcept, err]

/-- A loop that returns has called every element. -/
theorem mapList_eq_ok {f : α → Outcome ε β} {as : List α} {bs : List β} :
    mapList f as = .ok bs ↔ List.Forall₂ (fun a b => f a = .ok b) as bs := by
  induction as generalizing bs with
  | nil => simp [mapList, List.forall₂_nil_left_iff, eq_comm]
  | cons a as ih =>
    rw [mapList, List.forall₂_cons_left_iff]
    cases ha : f a with
    | error e => simp [bind, Except.bind]
    | ok b =>
      cases hl : mapList f as with
      | error e =>
        have hnone : ∀ bs, ¬ List.Forall₂ (fun a b => f a = .ok b) as bs := fun bs h => by
          rw [ih.2 h] at hl
          cases hl
        simp [bind, Except.bind, hnone]
      | ok bs' =>
        have hbs : ∀ bs, List.Forall₂ (fun a b => f a = .ok b) as bs ↔ bs' = bs := fun bs => by
          rw [← ih, hl, Except.ok.injEq]
        simp [bind, Except.bind, hbs, eq_comm]

/-- A loop that reads back every value that `g` wrote. -/
theorem mapList_map {f : β → Outcome ε α} {g : α → β} (h : ∀ a, f (g a) = .ok a) (as : List α) :
    mapList f (as.map g) = .ok as := by
  induction as with
  | nil => rfl
  | cons a as ih =>
    rw [List.map_cons, mapList, h a, ih]
    rfl

end Outcome

@[simp] theorem ok_bind {ε α β : Type} (a : α) (f : α → Except ε β) :
    (Except.ok a >>= f) = f a := rfl

@[simp] theorem error_bind {ε α β : Type} (e : ε) (f : α → Except ε β) :
    (Except.error e >>= f) = .error e := rfl

/-- Inversion of `?`: a sequence that returned a value ran both its parts. -/
theorem bind_eq_ok {ε α β : Type} {x : Except ε α} {f : α → Except ε β} {b : β} :
    (x >>= f) = .ok b ↔ ∃ a, x = .ok a ∧ f a = .ok b := by
  cases x <;> simp [bind, Except.bind]

end Rust
