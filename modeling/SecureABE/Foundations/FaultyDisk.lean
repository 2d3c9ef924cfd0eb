import SecureABE.Foundations.Faults
import SecureABE.Foundations.FileSystem

/-!
# A disk that may fail

`FileOp.faulty` is what an access does on a device that may fail. An access that fails replies with an
error, or with false where the reply is a truth value. A write of a whole file is done or not done; an
append that fails leaves a part of the bytes, and the creation of directories a part of them.

`Fs.Peeks` is said of the first part of a program: it leaves the disk as it is, and what it returns has
a property. Values that come from the files of the disk have one; a failure has none.
-/

namespace Rust

/-- How an access fails: with an error, after a part of its work. -/
structure Fault where
  error : IoError
  progress : ℕ

/-- The first of the directories on the way to a path are created, but not the last one. -/
def Disk.createPart (d : Disk) (p : Path) : ℕ → Disk
  | 0 => d
  | n + 1 => d.createDirAll ⟨p.components.dropLast.take n⟩

/-- A proper part of the bytes is appended. -/
def Disk.appendPart (d : Disk) (p : Path) (b : Bytes) (n : ℕ) : Disk := d.append p (b.dropLast.take n)

namespace FileOp

/-- The effect of an access on a device that may fail. A write that fails leaves the file as it was; of an
append or of a chain of directories a part may be there. -/
def faulty : Device Reply (Option Fault) Disk
  | none, op, d => op.handle d
  | some φ, .read _, d => (.error φ.error, d)
  | some φ, .write _ _, d => (.error φ.error, d)
  | some _, .exist _, d => (false, d)
  | some φ, .createDirAll p, d => (.error φ.error, d.createPart p φ.progress)
  | some φ, .openAppend _, d => (.error φ.error, d)
  | some φ, .append p b, d => (.error φ.error, d.appendPart p b φ.progress)
  | some φ, .readDir _, d => (.error φ.error, d)

/-- The access does not change anything. -/
def IsRead : FileOp → Prop
  | .read _ | .exist _ | .readDir _ => True
  | _ => False

theorem IsRead.faulty_eq {op : FileOp} (h : op.IsRead) (φ : Option Fault) (d : Disk) :
    (faulty φ op d).2 = d := by
  cases op <;> cases φ <;> first | rfl | cases h

end FileOp

/-! ## Trails -/

/-- The accesses of a program, each with its fault if it has failed. -/
abbrev Trail := List (FileOp × Option Fault)

/-- The bytes that an access puts at the end of a file. -/
def appendedBy (p : Path) : FileOp × Option Fault → Bytes
  | (.append q b, none) => if q = p then b else []
  | (.append q b, some φ) => if q = p then b.dropLast.take φ.progress else []
  | _ => []

@[simp] theorem appendedBy_write (p q : Path) (b : Bytes) (φ : Option Fault) :
    appendedBy p (.write q b, φ) = [] := by cases φ <;> rfl

@[simp] theorem appendedBy_createDirAll (p q : Path) (φ : Option Fault) :
    appendedBy p (.createDirAll q, φ) = [] := by cases φ <;> rfl

@[simp] theorem appendedBy_openAppend (p q : Path) (φ : Option Fault) :
    appendedBy p (.openAppend q, φ) = [] := by cases φ <;> rfl

theorem Disk.contents_append (d : Disk) (p q : Path) (b : Bytes) :
    (d.append q b).contents p = d.contents p ++ if q = p then b else [] := by
  by_cases hq : q = p
  · subst hq
    rw [if_pos rfl, Disk.contents_append_self]
  · rw [if_neg hq, List.append_nil, Disk.contents, Disk.lookup_append_ne (Ne.symm hq)]
    rfl

/-- What an access that does not replace the file does to its contents. -/
theorem FileOp.contents_faulty {p : Path} {op : FileOp} (hop : ∀ b, op ≠ .write p b) (φ : Option Fault)
    (d : Disk) : (faulty φ op d).2.contents p = d.contents p ++ appendedBy p (op, φ) := by
  have hdirs : ∀ q n, (d.createPart q n).contents p = d.contents p := by
    intro q n
    cases n <;> rfl
  cases op with
  | read q | exist q | readDir q => cases φ <;> exact (List.append_nil _).symm
  | write q b =>
    have hq : p ≠ q := fun h => hop b (h ▸ rfl)
    cases φ with
    | none => exact (congrArg (Option.getD · []) (Disk.lookup_write_ne hq d b)).trans (List.append_nil _).symm
    | some φ => exact (List.append_nil _).symm
  | createDirAll q =>
    cases φ with
    | none => exact (List.append_nil _).symm
    | some φ => exact (hdirs q φ.progress).trans (List.append_nil _).symm
  | openAppend q =>
    cases φ with
    | none => exact (d.contents_append p q []).trans (by rw [ite_self]; rfl)
    | some φ => exact (List.append_nil _).symm
  | append q b =>
    cases φ with
    | none => exact d.contents_append p q b
    | some φ => exact d.contents_append p q _

/-- What an access puts in place of the bytes that a file holds. -/
def replacedBy (p : Path) (held : Bytes) : FileOp × Option Fault → Bytes
  | (.write q b, none) => if q = p then b else held
  | _ => held

/-- The bytes that a trail has last put in place of a file; those that it held before, if there are none. -/
def replaced (p : Path) (old : Bytes) (trail : Trail) : Bytes := trail.foldl (replacedBy p) old

theorem replaced_concat_write (p : Path) (old : Bytes) (trail : Trail) (b : Bytes) :
    replaced p old (trail ++ [(.write p b, none)]) = b := by
  rw [replaced, List.foldl_append]
  exact if_pos rfl

theorem replaced_concat_fault (p : Path) (old : Bytes) (trail : Trail) (op : FileOp) (φ : Fault) :
    replaced p old (trail ++ [(op, some φ)]) = replaced p old trail := by
  rw [replaced, List.foldl_append]
  cases op <;> rfl

theorem replaced_concat {p : Path} {op : FileOp} (hop : ∀ b, op ≠ .write p b) (old : Bytes)
    (trail : Trail) (φ : Option Fault) :
    replaced p old (trail ++ [(op, φ)]) = replaced p old trail := by
  cases φ with
  | some φ => exact replaced_concat_fault p old trail op φ
  | none =>
    rw [replaced, List.foldl_append]
    cases op with
    | write q b => exact if_neg fun hq => hop b (by rw [hq])
    | _ => rfl

/-- After what the trail has last put in its place, a file has these bytes. -/
def Extended (p : Path) (old b : Bytes) (s : Disk × Trail) : Prop :=
  s.1.contents p = replaced p old s.2 ++ b

/-- An access that does not replace the file adds to it. -/
theorem Extended.concat {p : Path} {old b : Bytes} {s : Disk × Trail} (h : Extended p old b s)
    {op : FileOp} (hop : ∀ b, op ≠ .write p b) (φ : Option Fault) :
    Extended p old (b ++ appendedBy p (op, φ)) (FileOp.faulty.logged φ op s).2 := by
  rw [Extended, Device.logged, FileOp.contents_faulty hop, h, replaced_concat hop, List.append_assoc]

/-- After an access that appends nothing to it, a file that has nothing more still has nothing more. -/
theorem Extended.concat_nil {p : Path} {old : Bytes} {s : Disk × Trail} (h : Extended p old [] s)
    {op : FileOp} {φ : Option Fault} (happend : appendedBy p (op, φ) = []) :
    Extended p old [] (FileOp.faulty.logged φ op s).2 := by
  by_cases hop : ∃ b, op = .write p b
  · obtain ⟨b, rfl⟩ := hop
    rw [Extended, Device.logged]
    cases φ with
    | none =>
      rw [replaced_concat_write, List.append_nil]
      exact congrArg (Option.getD · []) (Disk.lookup_write_self ..)
    | some φ =>
      rw [replaced_concat_fault]
      exact h
  · have h' := h.concat (not_exists.1 hop) φ
    rwa [happend] at h'

namespace Fs

variable {α β ε ε' : Type} {I E : Disk → Prop} {d : Disk} {p : Path}

/-- On the way of the program the device may fail, and it may be cut off. -/
abbrev Safe (I E : Disk → Prop) (x : FileCmd ε α) (Q : α → Disk → Prop) (d : Disk) : Prop :=
  Cmd.Safe FileOp.faulty I E x Q d

/-- A reply that is an error ends the program. -/
theorem safe_replied {op : FileOp} {g : op.Reply → Outcome ε α} {Q : α → Disk → Prop} (hcut : I d)
    (hdone : ∀ a, g (op.handle d).1 = .ok a → Q a (op.handle d).2)
    (herror : ∀ e, g (op.handle d).1 = .error e → E (op.handle d).2)
    (hfault : ∀ φ, (∃ e, g (FileOp.faulty (some φ) op d).1 = .error e) ∧
      E (FileOp.faulty (some φ) op d).2) :
    Safe I E (Cmd.perform op >>= fun r => Cmd.ofOutcome (g r)) Q d := by
  refine ⟨hcut, fun φ => ?_⟩
  cases φ with
  | none => exact ⟨hdone, herror⟩
  | some φ =>
    obtain ⟨⟨e, he⟩, hE⟩ := hfault φ
    exact ⟨fun a ha => (by cases he.symm.trans ha), fun _ _ => hE⟩

/-! ### One access -/

/-- The program is one access, and fails exactly if the access does. -/
def Single (x : FileCmd ε Unit) (op : FileOp) : Prop :=
  ∃ g : op.Reply → Outcome ε Unit, x = Prog.step op (fun r => Prog.pure (g r)) ∧
    (∀ d, g (op.handle d).1 = .ok ()) ∧ ∀ φ d, ∃ e, g (FileOp.faulty (some φ) op d).1 = .error e

theorem single_write (p : Path) (b : Bytes) : Single (write p b) (.write p b) :=
  ⟨fun r => replied r, rfl, fun _ => rfl, fun _ _ => ⟨_, rfl⟩⟩

theorem single_createDirAll (p : Path) : Single (createDirAll p) (.createDirAll p) :=
  ⟨fun r => replied r, rfl, fun _ => rfl, fun _ _ => ⟨_, rfl⟩⟩

theorem single_openAppend (p : Path) : Single (openAppend p) (.openAppend p) :=
  ⟨fun r => replied r, rfl, fun _ => rfl, fun _ _ => ⟨_, rfl⟩⟩

theorem single_append (p : Path) (b : Bytes) : Single (append p b) (.append p b) :=
  ⟨fun r => replied r, rfl, fun _ => rfl, fun _ _ => ⟨_, rfl⟩⟩

theorem Single.mapErr {f : ε → ε'} {x : FileCmd ε Unit} {op : FileOp} (h : Single x op) :
    Single (Cmd.mapErr f x) op := by
  obtain ⟨g, rfl, hok, hfail⟩ := h
  refine ⟨fun r => (g r).mapErr f, rfl, fun d => congrArg (Outcome.mapErr f) (hok d), fun φ d => ?_⟩
  obtain ⟨e, he⟩ := hfail φ d
  rcases e with e | msg
  · exact ⟨.error (f e), congrArg (Outcome.mapErr f) he⟩
  · exact ⟨.panic msg, congrArg (Outcome.mapErr f) he⟩

theorem Single.only {x : FileCmd ε Unit} {op : FileOp} (h : Single x op) {P : FileOp → Prop} (hP : P op) :
    Cmd.Only P x fun _ => True := by
  obtain ⟨g, rfl, -, -⟩ := h
  exact ⟨hP, fun _ _ _ => trivial⟩

/-- With a log, one access is one more step of the trail. -/
theorem Single.safe {x : FileCmd ε Unit} {op : FileOp} (h : Single x op) {I E : Disk × Trail → Prop}
    {Q : Unit → Disk × Trail → Prop} {s : Disk × Trail} (hcut : I s)
    (hdone : Q () (FileOp.faulty.logged none op s).2)
    (hfault : ∀ φ, E (FileOp.faulty.logged (some φ) op s).2) :
    Cmd.Safe FileOp.faulty.logged I E x Q s := by
  obtain ⟨g, rfl, hok, hfail⟩ := h
  refine ⟨hcut, fun φ => ?_⟩
  cases φ with
  | none =>
    exact ⟨fun _ _ => hdone, fun e he => (by cases (hok s.1).symm.trans he)⟩
  | some φ =>
    obtain ⟨e, he⟩ := hfail φ s.1
    exact ⟨fun a ha => (by cases he.symm.trans ha), fun _ _ => hfault φ⟩

/-! ### Writing -/

theorem safe_write {b : Bytes} {Q : Unit → Disk → Prop} (hcut : I d) (hfault : E d)
    (hdone : Q () (d.write p b)) : Safe I E (write p b) Q d :=
  safe_replied hcut (fun _ _ => hdone) (fun _ he => (by cases he)) fun _ => ⟨⟨_, rfl⟩, hfault⟩

theorem safe_createDirAll {Q : Unit → Disk → Prop} (hcut : I d) (hfault : ∀ n, E (d.createPart p n))
    (hdone : Q () (d.createDirAll p)) : Safe I E (createDirAll p) Q d :=
  safe_replied hcut (fun _ _ => hdone) (fun _ he => (by cases he)) fun φ => ⟨⟨_, rfl⟩, hfault φ.progress⟩

theorem safe_openAppend {Q : Unit → Disk → Prop} (hcut : I d) (hfault : E d)
    (hdone : Q () (d.append p [])) : Safe I E (openAppend p) Q d :=
  safe_replied hcut (fun _ _ => hdone) (fun _ he => (by cases he)) fun _ => ⟨⟨_, rfl⟩, hfault⟩

theorem safe_append {b : Bytes} {Q : Unit → Disk → Prop} (hcut : I d)
    (hfault : ∀ n, E (d.appendPart p b n)) (hdone : Q () (d.append p b)) :
    Safe I E (append p b) Q d :=
  safe_replied hcut (fun _ _ => hdone) (fun _ he => (by cases he)) fun φ => ⟨⟨_, rfl⟩, hfault φ.progress⟩

/-! ### Reading -/

theorem only_read {P : FileOp → Prop} {p : Path} (h : P (.read p)) :
    Cmd.Only P (read p) fun _ => True :=
  (Cmd.only_perform h).bind fun _ _ => Cmd.only_outcome _

theorem only_readToString {P : FileOp → Prop} {p : Path} (h : P (.read p)) :
    Cmd.Only P (readToString p) fun _ => True :=
  (Cmd.only_perform h).bind fun _ _ => Cmd.only_outcome _

theorem only_exist {P : FileOp → Prop} {p : Path} (h : P (.exist p)) :
    Cmd.Only P (exist p : FileCmd ε Bool) fun _ => True := Cmd.only_perform h

/-- All accesses of the program read, and what it returns has a property. -/
abbrev OnlyReads (x : FileCmd ε α) (V : α → Prop) : Prop := Cmd.Only FileOp.IsRead x V

theorem onlyReads_read (p : Path) : OnlyReads (read p) fun _ => True := only_read trivial

theorem onlyReads_readToString (p : Path) : OnlyReads (readToString p) fun _ => True :=
  only_readToString trivial

theorem onlyReads_exist (p : Path) : OnlyReads (exist p : FileCmd ε Bool) fun _ => True :=
  only_exist trivial

/-- The program leaves the disk as it is, and the value it returns has a property. -/
def Peeks (x : FileCmd ε α) (d : Disk) (P : α → Prop) : Prop :=
  Safe (· = d) (· = d) x (fun a d' => d' = d ∧ P a) d

theorem peeks_ofOutcome {o : Outcome ε α} {P : α → Prop} (h : ∀ a, o = .ok a → P a) :
    Peeks (Cmd.ofOutcome o) d P := Cmd.safe_ofOutcome (fun a ha => ⟨rfl, h a ha⟩) rfl

theorem peeks_pure {a : α} {P : α → Prop} (h : P a) : Peeks (pure a : FileCmd ε α) d P :=
  Cmd.safe_pure ⟨rfl, h⟩

theorem Peeks.mono {x : FileCmd ε α} {P R : α → Prop} (h : Peeks x d P) (hPR : ∀ a, P a → R a) :
    Peeks x d R :=
  Cmd.Safe.mono h (fun _ hd => hd) (fun _ hd => hd) fun a _ ha => ⟨ha.1, hPR a ha.2⟩

theorem Peeks.bind {x : FileCmd ε α} {f : α → FileCmd ε β} {P : α → Prop} {R : β → Prop}
    (h : Peeks x d P) (hf : ∀ a, P a → Peeks (f a) d R) : Peeks (x >>= f) d R :=
  Cmd.Safe.bind h fun a d' ha => by
    obtain ⟨rfl, ha⟩ := ha
    exact hf a ha

theorem Peeks.mapErr {f : ε → ε'} {x : FileCmd ε α} {P : α → Prop} (h : Peeks x d P) :
    Peeks (Cmd.mapErr f x) d P := Cmd.Safe.mapErr h

theorem Peeks.attempt {x : FileCmd ε α} {P : α → Prop} (h : Peeks x d P) :
    Peeks (Cmd.attempt x : FileCmd ε' (Except ε α)) d fun r => ∀ a, r = .ok a → P a := by
  apply Cmd.Safe.mono (Cmd.Safe.attempt h) (fun _ hd => hd) (fun _ hd => hd)
  intro r d' hr
  cases r with
  | ok a => exact ⟨(hr.1 a rfl).1, fun b hb => Except.ok.inj hb ▸ (hr.1 a rfl).2⟩
  | error e => exact ⟨hr.2 e rfl, fun a ha => (by cases ha)⟩

theorem Peeks.ite {p : Prop} [Decidable p] {x y : FileCmd ε α} {P : α → Prop}
    (hx : p → Peeks x d P) (hy : ¬ p → Peeks y d P) : Peeks (if p then x else y) d P :=
  Cmd.Safe.ite hx hy

/-- What a read returns is in the file. -/
theorem peeks_readToString (p : Path) (d : Disk) :
    Peeks (readToString p) d fun s => textOf (d.read p) = .ok s :=
  safe_replied rfl (fun _ hs => ⟨rfl, hs⟩) (fun _ _ => rfl) fun _ => ⟨⟨_, rfl⟩, rfl⟩

theorem peeks_read (p : Path) (d : Disk) : Peeks (read p) d fun b => d.read p = .ok b :=
  safe_replied rfl (fun _ hb => ⟨rfl, replied_eq_ok.1 hb⟩) (fun _ _ => rfl) fun _ => ⟨⟨_, rfl⟩, rfl⟩

theorem OnlyReads.peeks {x : FileCmd ε α} {V : α → Prop} (h : OnlyReads x V) (d : Disk) :
    Peeks x d V :=
  Cmd.Only.safe (I := (· = d)) h (fun φ _ d' hop hd => (hop.faulty_eq φ d').trans hd) rfl

/-- After a part that only reads. -/
theorem Peeks.then {x : FileCmd ε α} {f : α → FileCmd ε β} {P : α → Prop} {R : β → Disk → Prop}
    (h : Peeks x d P) (hcut : I d) (herror : E d) (hf : ∀ a, P a → Safe I E (f a) R d) :
    Safe I E (x >>= f) R d := by
  have hx : Safe I E x (fun a d' => d' = d ∧ P a) d :=
    Cmd.Safe.mono h (fun d' hd => hd ▸ hcut) (fun d' hd => hd ▸ herror) fun _ _ ha => ha
  apply Cmd.Safe.bind hx
  intro a d' ha
  obtain ⟨rfl, ha⟩ := ha
  exact hf a ha

end Fs

end Rust
