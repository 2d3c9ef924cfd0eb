import SecureABE.Foundations.FaultyDisk
import SecureABE.Foundations.Traces

/-!
# Programs that share a disk

The looks and writes of the accesses, and what a program knows of a file by its last look at it
(`Fs.Knows`). A program that reads one file shows what a disk holds there (`Fs.Shows`): its outcome is
that of every disk which gives the last reply.
-/

namespace Rust

namespace FileOp

/-- The access looks at what is at the path. -/
def LooksAt : FileOp → Path → Prop
  | .read q, p | .exist q, p => q = p
  | _, _ => False

/-- The access changes the file at the path. -/
def Writes : FileOp → Path → Prop
  | .write q _, p | .openAppend q, p | .append q _, p => q = p
  | _, _ => False

instance (op : FileOp) (p : Path) : Decidable (op.Writes p) :=
  match op with
  | .write q _ | .openAppend q | .append q _ => inferInstanceAs (Decidable (q = p))
  | .read _ | .exist _ | .createDirAll _ | .readDir _ => inferInstanceAs (Decidable False)

theorem LooksAt.not_writes {op : FileOp} {p : Path} (h : op.LooksAt p) (q : Path) : ¬ op.Writes q := by
  cases op <;> simp_all [LooksAt, Writes]

theorem LooksAt.not_looksAt {op : FileOp} {p q : Path} (h : op.LooksAt p) (hne : p ≠ q) :
    ¬ op.LooksAt q := by
  cases op <;> simp_all [LooksAt]

/-- A file that an access does not change. -/
theorem lookup_handle {op : FileOp} {p : Path} (h : ¬ op.Writes p) (d : Disk) :
    (op.handle d).2.files.lookup p = d.files.lookup p := by
  cases op with
  | read q | exist q | readDir q | createDirAll q => rfl
  | write q b => exact Disk.lookup_write_ne (Ne.symm h) d b
  | openAppend q | append q b => exact Disk.lookup_append_ne (Ne.symm h) d _

end FileOp

/-- What a program does whatever the replies, it does after every history. -/
theorem Cmd.Only.obeys {Op : Type} {Reply : Op → Type} {α ε : Type} {P : Op → Prop} {x : Cmd Reply ε α}
    {V : α → Prop} (h : Cmd.Only P x V) {R : List (Event Reply) → Op → Prop}
    {I : List (Event Reply) → Prop} {past : List (Event Reply)} (hR : ∀ past op, P op → R past op)
    (hI : ∀ past e, P e.op → I past → I (past ++ [e])) (hp : I past) :
    Cmd.Obeys R x (fun past a => I past ∧ V a) past := by
  unfold Cmd.Only at h
  unfold Cmd.Obeys
  induction x generalizing past with
  | pure o => exact fun a ha => ⟨hp, h a ha⟩
  | step op next ih => exact ⟨hR past op h.1, fun r => ih r (h.2 r) (hI past ⟨op, r⟩ h.1 hp)⟩

namespace Fs

variable {α β ε ε' : Type} {p q : Path}

/-- The last access of a program to a file is a look that shows a fact. -/
abbrev Knows (p : Path) (φ : Disk → Prop) (past : List (Event FileOp.Reply)) : Prop :=
  Rust.Knows FileOp.LooksAt FileOp.Writes p FileOp.handle φ past

theorem Knows.look {φ : Disk → Prop} {past : List (Event FileOp.Reply)} (h : Knows p φ past)
    {e : Event FileOp.Reply} (hlook : e.op.LooksAt q) (hne : q ≠ p) : Knows p φ (past ++ [e]) :=
  h.concat (hlook.not_looksAt hne) (hlook.not_writes p)

theorem Knows.write {φ : Disk → Prop} {past : List (Event FileOp.Reply)} (h : Knows p φ past) {b : Bytes}
    {r : FileOp.Reply (.write q b)} (hne : q ≠ p) : Knows p φ (past ++ [⟨.write q b, r⟩]) :=
  h.concat (e := ⟨.write q b, r⟩) id hne

theorem Knows.createDirAll {φ : Disk → Prop} {past : List (Event FileOp.Reply)} (h : Knows p φ past)
    {r : FileOp.Reply (.createDirAll q)} : Knows p φ (past ++ [⟨.createDirAll q, r⟩]) :=
  h.concat (e := ⟨.createDirAll q, r⟩) id id

/-- The program looks at one file only, and its outcome is what a disk holds there. -/
def Shows (p : Path) (x : FileCmd ε α) (f : Disk → Outcome ε α) : Prop :=
  ∀ past, Prog.Obeys (fun _ op => op.LooksAt p) (fun past o => Knows p (fun d => f d = o) past) x past

theorem shows_readToString (p : Path) : Shows p (readToString p) fun d => textOf (d.read p) := by
  intro past
  refine ⟨rfl, fun r => knows_concat (e := ⟨.read p, r⟩) past rfl fun d hreply => ?_⟩
  exact congrArg textOf hreply

theorem Shows.mapErr {x : FileCmd ε α} {f : Disk → Outcome ε α} {g : ε → ε'} (h : Shows p x f) :
    Shows p (Cmd.mapErr g x) fun d => (f d).mapErr g := fun past =>
  (h past).bind fun _ _ ho => ho.mono fun _ hd => congrArg (Outcome.mapErr g) hd

theorem Shows.attempt {x : FileCmd ε α} {f : Disk → Outcome ε α} (h : Shows p x f) :
    Shows p (Cmd.attempt x : FileCmd ε' (Except ε α)) fun d => Cmd.caught (f d) := fun past =>
  (h past).bind fun _ _ ho => ho.mono fun _ hd => congrArg Cmd.caught hd

theorem Shows.bind_ofOutcome {x : FileCmd ε α} {f : Disk → Outcome ε α} {g : α → Outcome ε β}
    (h : Shows p x f) : Shows p (x >>= fun a => Cmd.ofOutcome (g a)) fun d => f d >>= g := fun past =>
  (h past).bind fun _ o ho => by
    cases o with
    | ok a => exact ho.mono fun _ hd => congrArg (· >>= g) hd
    | error e => exact ho.mono fun _ hd => congrArg (· >>= g) hd

variable {R : List (Event FileOp.Reply) → FileOp → Prop} {I : List (Event FileOp.Reply) → Prop}
  {past : List (Event FileOp.Reply)}

/-- A look at another file than those of which something is known. -/
theorem Shows.obeys {x : FileCmd ε α} {f : Disk → Outcome ε α} (h : Shows p x f)
    (hR : ∀ past op, op.LooksAt p → R past op)
    (hI : ∀ past e, e.op.LooksAt p → I past → I (past ++ [e])) (hp : I past) :
    Cmd.Obeys R x (fun past a => I past ∧ Knows p (fun d => f d = .ok a) past) past :=
  ((h past).keeps (fun past op _ hop => hR past op hop)
    (fun past op r hp hop => hI past ⟨op, r⟩ hop hp) hp).mono fun _ _ ho _ ha =>
      ⟨ho.1, ho.2.mono fun _ hd => hd.trans ha⟩

theorem Single.performs {x : FileCmd ε Unit} {op : FileOp} (h : Single x op)
    {es : List (Event FileOp.Reply)} {o : Outcome ε Unit} (hx : Prog.Performs x es o) :
    ∃ r, es = [⟨op, r⟩] := by
  obtain ⟨g, rfl, -, -⟩ := h
  obtain ⟨r, es', rfl, hr⟩ := Prog.performs_step.1 hx
  obtain ⟨rfl, -⟩ := Prog.performs_pure.1 hr
  exact ⟨r, rfl⟩

theorem Single.obeys {x : FileCmd ε Unit} {op : FileOp} (h : Single x op)
    {Q : List (Event FileOp.Reply) → Unit → Prop} (hR : R past op) (hQ : ∀ r, Q (past ++ [⟨op, r⟩]) ()) :
    Cmd.Obeys R x Q past := by
  obtain ⟨g, rfl, -, -⟩ := h
  exact ⟨hR, fun r _ _ => hQ r⟩

end Fs

end Rust
