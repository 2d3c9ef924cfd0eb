import SecureABE.Foundations.HashMap
import SecureABE.Foundations.Program
import SecureABE.Foundations.Text
import Mathlib.Data.List.Infix

/-!
# Files

`std::fs` and `std::path`. A path is the list of its components from the root, with `.` and `..`
worked off when it is put together (symbolic links are not modelled). A `Disk` holds the files and
the directories. `FileOp` is one access to it, and `FileOp.handle` its effect when the device does
not fail: a file that is not there cannot be read, and every write succeeds. That a write fails, for
want of space or of the directory it goes to, is a fault of the device.
-/

namespace Rust

/-! ## Paths -/

/-- A path, as its components from the root. -/
@[ext]
structure Path where
  components : List String
  deriving DecidableEq, Repr

namespace Path

/-- One component goes onto a path. -/
def push (p : List String) (c : String) : List String :=
  if c = "" ∨ c = "." then p else if c = ".." then p.dropLast else p ++ [c]

/-- The text between the slashes. -/
def parts (s : String) : List String := (split '/' s.toList).map String.ofList

/-- `Path::join`: an absolute path replaces the base. -/
def join (p : Path) (s : String) : Path :=
  ⟨(parts s).foldl push (if s.toList.head? = some '/' then [] else p.components)⟩

/-- `Path::file_name`, as text. -/
def fileName (s : String) : Option String :=
  match ((parts s).filter fun c => c ≠ "" ∧ c ≠ ".").getLast? with
  | none => none
  | some c => if c = ".." then none else some c

/-- A text that names an entry of a directory. -/
structure IsName (s : String) : Prop where
  ne_empty : s ≠ ""
  ne_dot : s ≠ "."
  ne_dots : s ≠ ".."
  no_slash : '/' ∉ s.toList

theorem isName_of_mem {s : String} {c : Char} (h : c ∈ s.toList) (hdot : c ≠ '.')
    (hslash : '/' ∉ s.toList) : IsName s := by
  refine ⟨?_, ?_, ?_, hslash⟩ <;>
  · rintro rfl
    simp_all

theorem parts_of_no_slash {s : String} (h : '/' ∉ s.toList) : parts s = [s] := by
  rw [parts, split_of_notMem h, List.map_singleton, String.ofList_toList]

theorem join_name {s : String} (h : IsName s) (p : Path) : p.join s = ⟨p.components ++ [s]⟩ := by
  have hhead : s.toList.head? ≠ some '/' := fun hs => h.no_slash (List.mem_of_head? hs)
  rw [join, parts_of_no_slash h.no_slash, if_neg hhead, List.foldl_cons, List.foldl_nil, push,
    if_neg (by simp [h.ne_empty, h.ne_dot]), if_neg h.ne_dots]

theorem join_injective {s t : String} (hs : IsName s) (ht : IsName t) {p : Path}
    (h : p.join s = p.join t) : s = t := by
  rw [join_name hs, join_name ht] at h
  simpa using h

/-- The text after the last slash. -/
def lastPart (s : String) : String := (parts s).getLast?.getD ""

theorem lastPart_of_no_slash {s : String} (h : '/' ∉ s.toList) : lastPart s = s := by
  rw [lastPart, parts_of_no_slash h]
  rfl

/-- A path that is put together from a text ends with its last part, if that is more than dots. -/
theorem getLast_join_append {t : String} (ht : '/' ∉ t.toList) {c : Char} (hc : c ∈ t.toList)
    (hdot : c ≠ '.') (p : Path) (s : String) :
    (p.join (s ++ t)).components.getLast? = some (lastPart s ++ t) := by
  obtain ⟨ws, w, hs, hst⟩ := exists_split_append ht s.toList
  have hlast : lastPart s = String.ofList w := by
    unfold lastPart parts
    rw [hs, List.map_append, List.map_singleton, List.getLast?_concat, Option.getD_some]
  have hparts : parts (s ++ t) = ws.map String.ofList ++ [lastPart s ++ t] := by
    rw [parts, String.toList_append, hst, List.map_append, List.map_singleton, String.ofList_append,
      String.ofList_toList, hlast]
  have hmem : c ∈ (lastPart s ++ t).toList := by
    rw [String.toList_append]
    exact List.mem_append_right _ hc
  have hpush : ∀ q, push q (lastPart s ++ t) = q ++ [lastPart s ++ t] := by
    intro q
    have hne : ∀ s' : String, c ∉ s'.toList → lastPart s ++ t ≠ s' := by
      rintro s' hs' rfl
      exact hs' hmem
    rw [push, if_neg (not_or.2 ⟨hne _ (by simp), hne _ (by simpa using hdot)⟩),
      if_neg (hne _ (by simpa using hdot))]
  rw [join, hparts, List.foldl_append, List.foldl_cons, List.foldl_nil, hpush]
  exact List.getLast?_concat

/-- The path that leads from a directory along further components. -/
def under (p : Path) (cs : List String) : Path := ⟨p.components ++ cs⟩

theorem under_nil (p : Path) : p.under [] = p := by
  rw [under, List.append_nil]

theorem under_injective {p : Path} {cs cs' : List String} (h : p.under cs = p.under cs') :
    cs = cs' := by
  simpa [under] using h

theorem join_eq_under {s : String} (h : IsName s) (p : Path) (cs : List String) :
    (p.under cs).join s = p.under (cs ++ [s]) := by
  rw [join_name h, under, under, List.append_assoc]

/-- The path of a directory and of all directories above it. -/
def ancestors (p : Path) : List Path := p.components.inits.map Path.mk

theorem under_mem_ancestors {p : Path} {cs cs' : List String} :
    p.under cs ∈ (p.under cs').ancestors ↔ cs <+: cs' := by
  simp only [ancestors, List.mem_map, List.mem_inits, under, Path.mk.injEq]
  constructor
  · rintro ⟨ds, hds, rfl⟩
    exact (List.prefix_append_right_inj p.components).1 hds
  · intro h
    exact ⟨_, (List.prefix_append_right_inj p.components).2 h, rfl⟩

end Path

/-! ## The disk -/

/-- `std::io::Error`. -/
inductive IoError
  | notFound
  /-- The text is not UTF-8. -/
  | invalidData
  | other (msg : String)
  deriving DecidableEq, Repr

/-- The `Display` of an error. -/
def IoError.toText : IoError → String
  | .notFound => "No such file or directory (os error 2)"
  | .invalidData => "stream did not contain valid UTF-8"
  | .other msg => msg

/-- The files with their contents, and the directories. -/
structure Disk where
  files : HashMap Path Bytes
  dirs : List Path

namespace Disk

/-- The reply to a read. -/
def read (d : Disk) (p : Path) : Except IoError Bytes :=
  match d.files.lookup p with
  | some b => .ok b
  | none => .error .notFound

def write (d : Disk) (p : Path) (b : Bytes) : Disk := { d with files := d.files.insert p b }

/-- The contents of a file, none when it is not there. -/
def contents (d : Disk) (p : Path) : Bytes := (d.files.lookup p).getD []

def append (d : Disk) (p : Path) (b : Bytes) : Disk := d.write p (d.contents p ++ b)

/-- A path leads to a file or to a directory. -/
def has (d : Disk) (p : Path) : Bool := p ∈ d.files || p ∈ d.dirs

def createDirAll (d : Disk) (p : Path) : Disk :=
  { d with dirs := d.dirs ++ p.ancestors.filter (· ∉ d.dirs) }

/-- The entries of a directory. -/
def entries (d : Disk) (p : Path) : List Path :=
  ((d.files.iter.map Prod.fst ++ d.dirs).filter fun q =>
    q.components ≠ [] ∧ q.components.dropLast = p.components).dedup

@[simp] theorem lookup_write_self (d : Disk) (p : Path) (b : Bytes) :
    (d.write p b).files.lookup p = some b := AList.lookup_insert _

theorem lookup_write_ne {p q : Path} (h : q ≠ p) (d : Disk) (b : Bytes) :
    (d.write p b).files.lookup q = d.files.lookup q := AList.lookup_insert_ne h

@[simp] theorem files_createDirAll (d : Disk) (p : Path) : (d.createDirAll p).files = d.files := rfl

@[simp] theorem lookup_append_self (d : Disk) (p : Path) (b : Bytes) :
    (d.append p b).files.lookup p = some (d.contents p ++ b) := AList.lookup_insert _

theorem lookup_append_ne {p q : Path} (h : q ≠ p) (d : Disk) (b : Bytes) :
    (d.append p b).files.lookup q = d.files.lookup q := AList.lookup_insert_ne h

@[simp] theorem contents_append_self (d : Disk) (p : Path) (b : Bytes) :
    (d.append p b).contents p = d.contents p ++ b := by
  rw [contents, lookup_append_self, Option.getD_some]

/-- Appending twice is appending both at once. -/
theorem append_append (d : Disk) (p : Path) (b b' : Bytes) :
    (d.append p b).append p b' = d.append p (b ++ b') := by
  rw [append, contents_append_self, append, append, write, write, write, AList.insert_insert,
    List.append_assoc]

theorem read_congr {d d' : Disk} {p : Path} (h : d.files.lookup p = d'.files.lookup p) :
    d.read p = d'.read p := by
  unfold read
  rw [h]

theorem read_of_lookup {d : Disk} {p : Path} {b : Bytes} (h : d.files.lookup p = some b) :
    d.read p = .ok b := by
  rw [read, h]

theorem has_of_lookup {d : Disk} {p : Path} {b : Bytes} (h : d.files.lookup p = some b) :
    d.has p = true := by
  simp [has, HashMap.mem_of_lookup h]

theorem has_of_read {d : Disk} {p : Path} {b : Bytes} (h : d.read p = .ok b) : d.has p = true := by
  unfold read at h
  split at h
  · exact has_of_lookup ‹_›
  · cases h

theorem has_write {d : Disk} {q : Path} (h : d.has q = true) (p : Path) (b : Bytes) :
    (d.write p b).has q = true := by
  unfold has at h ⊢
  rcases Bool.or_eq_true_iff.1 h with h | h
  · have hmem : q ∈ (d.write p b).files := (AList.mem_insert _).2 (Or.inr (by simpa using h))
    simp [hmem]
  · exact Bool.or_eq_true_iff.2 (Or.inr h)

theorem has_write_of_ne {p q : Path} (h : q ≠ p) (d : Disk) (b : Bytes) :
    (d.write p b).has q = d.has q := by
  have hmem : q ∈ (d.write p b).files ↔ q ∈ d.files := (AList.mem_insert _).trans (or_iff_right h)
  unfold has
  rw [decide_eq_decide.2 hmem]
  rfl

theorem has_createDirAll_iff {d : Disk} {p q : Path} :
    (d.createDirAll p).has q = true ↔ d.has q = true ∨ q ∈ p.ancestors := by
  by_cases hq : q ∈ d.dirs
  · simp [has, createDirAll, hq]
  · simp [has, createDirAll, hq]

theorem has_createDirAll {d : Disk} {q : Path} (h : d.has q = true) (p : Path) :
    (d.createDirAll p).has q = true :=
  has_createDirAll_iff.2 (Or.inl h)

theorem has_createDirAll_mono {d d' : Disk} (h : ∀ q, d.has q = true → d'.has q = true) (p q : Path)
    (hq : (d.createDirAll p).has q = true) : (d'.createDirAll p).has q = true :=
  has_createDirAll_iff.2 ((has_createDirAll_iff.1 hq).imp_left (h q))

theorem has_createDirAll_self (d : Disk) (p : Path) : (d.createDirAll p).has p = true :=
  has_createDirAll_iff.2 (Or.inr
    (List.mem_map.2 ⟨p.components, (List.mem_inits _ _).2 (List.prefix_refl _), rfl⟩))

end Disk

/-! ## Operations -/

/-- One access to the disk. -/
inductive FileOp
  | read (p : Path)
  | write (p : Path) (b : Bytes)
  | exist (p : Path)
  | createDirAll (p : Path)
  /-- `OpenOptions::new().create(true).append(true).open`. -/
  | openAppend (p : Path)
  /-- `write_all` on a file opened so. -/
  | append (p : Path) (b : Bytes)
  | readDir (p : Path)
  deriving DecidableEq

/-- The reply to an access. -/
def FileOp.Reply : FileOp → Type
  | .read _ => Except IoError Bytes
  | .exist _ => Bool
  | .readDir _ => Except IoError (List Path)
  | .write _ _ | .createDirAll _ | .openAppend _ | .append _ _ => Except IoError Unit

/-- The effect of an access when the device does not fail. -/
def FileOp.handle : (op : FileOp) → Disk → op.Reply × Disk
  | .read p, d => (d.read p, d)
  | .write p b, d => (.ok (), d.write p b)
  | .exist p, d => (d.has p, d)
  | .createDirAll p, d => (.ok (), d.createDirAll p)
  | .openAppend p, d => (.ok (), d.append p [])
  | .append p b, d => (.ok (), d.append p b)
  | .readDir p, d => (if p ∈ d.dirs then .ok (d.entries p) else .error .notFound, d)

/-- A program that works on files. -/
abbrev FileCmd (ε α : Type) := Cmd FileOp.Reply ε α

namespace Fs

variable {α ε : Type}

/-- The reply of an access as an outcome. -/
def replied : Except IoError α → Outcome IoError α
  | .ok a => .ok a
  | .error e => Outcome.err e

theorem replied_eq_ok {r : Except IoError α} {a : α} : replied r = .ok a ↔ r = .ok a := by
  cases r <;> simp [replied, Outcome.err]

/-- `fs::read`. -/
def read (p : Path) : FileCmd IoError Bytes := do
  let r ← Cmd.perform (FileOp.read p)
  Cmd.ofOutcome (replied r)

/-- The text of a file that was read. -/
def textOf (r : Except IoError Bytes) : Outcome IoError String := do
  let b ← replied r
  Outcome.okOr .invalidData (fromUtf8 b)

/-- `fs::read_to_string`. -/
def readToString (p : Path) : FileCmd IoError String := do
  let r ← Cmd.perform (FileOp.read p)
  Cmd.ofOutcome (textOf r)

/-- `fs::write`. -/
def write (p : Path) (b : Bytes) : FileCmd IoError Unit := do
  let r ← Cmd.perform (FileOp.write p b)
  Cmd.ofOutcome (replied r)

/-- `Path::exists`. -/
def exist (p : Path) : FileCmd ε Bool := Cmd.perform (FileOp.exist p)

/-- `fs::create_dir_all`. -/
def createDirAll (p : Path) : FileCmd IoError Unit := do
  let r ← Cmd.perform (FileOp.createDirAll p)
  Cmd.ofOutcome (replied r)

/-- `OpenOptions::new().create(true).append(true).open`. -/
def openAppend (p : Path) : FileCmd IoError Unit := do
  let r ← Cmd.perform (FileOp.openAppend p)
  Cmd.ofOutcome (replied r)

/-- `write_all` on a file opened for appending. -/
def append (p : Path) (b : Bytes) : FileCmd IoError Unit := do
  let r ← Cmd.perform (FileOp.append p b)
  Cmd.ofOutcome (replied r)

/-- `fs::read_dir`. -/
def readDir (p : Path) : FileCmd IoError (List Path) := do
  let r ← Cmd.perform (FileOp.readDir p)
  Cmd.ofOutcome (replied r)

/-! ### Running alone -/

/-- The outcome of a program on a disk whose device does not fail, and the disk after it. -/
def exec (x : FileCmd ε α) (d : Disk) : Outcome ε α × Disk := Cmd.exec FileOp.handle x d

/-- No access takes a path away. -/
theorem has_handle {d : Disk} {p : Path} (h : d.has p = true) (op : FileOp) :
    (op.handle d).2.has p = true := by
  cases op with
  | read q | exist q | readDir q => exact h
  | write q b => exact Disk.has_write h q b
  | createDirAll q => exact Disk.has_createDirAll h q
  | openAppend q | append q b => exact Disk.has_write h q _

theorem has_exec {p : Path} (x : FileCmd ε α) {d : Disk} (h : d.has p = true) :
    (exec x d).2.has p = true := by
  unfold exec
  induction x generalizing d with
  | pure o => exact h
  | step op next ih => exact ih _ (has_handle h op)

@[simp] theorem exec_ofOutcome (o : Outcome ε α) (d : Disk) :
    exec (Cmd.ofOutcome o : FileCmd ε α) d = (o, d) := rfl

@[simp] theorem exec_pure (a : α) (d : Disk) : exec (pure a : FileCmd ε α) d = (.ok a, d) := rfl

theorem exec_bind {β : Type} (x : FileCmd ε α) (f : α → FileCmd ε β) (d : Disk) :
    exec (x >>= f) d = Cmd.andThen (exec x d) fun a d => exec (f a) d :=
  Cmd.exec_bind FileOp.handle x f d

theorem exec_mapErr {ε' : Type} (f : ε → ε') (x : FileCmd ε α) (d : Disk) :
    exec (Cmd.mapErr f x) d = ((exec x d).1.mapErr f, (exec x d).2) :=
  Cmd.exec_mapErr FileOp.handle f x d

theorem exec_attempt {ε' : Type} (x : FileCmd ε α) (d : Disk) :
    exec (Cmd.attempt x : FileCmd ε' (Except ε α)) d = (Cmd.caught (exec x d).1, (exec x d).2) :=
  Cmd.exec_attempt FileOp.handle x d

@[simp] theorem exec_read (p : Path) (d : Disk) : exec (read p) d = (replied (d.read p), d) := rfl

@[simp] theorem exec_readToString (p : Path) (d : Disk) :
    exec (readToString p) d = (textOf (d.read p), d) := rfl

@[simp] theorem exec_write (p : Path) (b : Bytes) (d : Disk) :
    exec (write p b) d = (.ok (), d.write p b) := rfl

@[simp] theorem exec_exist (p : Path) (d : Disk) :
    exec (exist p : FileCmd ε Bool) d = (.ok (d.has p), d) := rfl

@[simp] theorem exec_createDirAll (p : Path) (d : Disk) :
    exec (createDirAll p) d = (.ok (), d.createDirAll p) := rfl

@[simp] theorem exec_openAppend (p : Path) (d : Disk) :
    exec (openAppend p) d = (.ok (), d.append p []) := rfl

@[simp] theorem exec_append (p : Path) (b : Bytes) (d : Disk) :
    exec (append p b) d = (.ok (), d.append p b) := rfl

@[simp] theorem exec_readDir (p : Path) (d : Disk) :
    exec (readDir p) d =
      (replied (if p ∈ d.dirs then .ok (d.entries p) else .error .notFound), d) := rfl

/-! ### Programs that only read -/

/-- The program leaves the disk as it is and ends with the outcome `o`. -/
def Reads (x : FileCmd ε α) (d : Disk) (o : Outcome ε α) : Prop := exec x d = (o, d)

theorem Reads.outcome {x : FileCmd ε α} {d : Disk} {o : Outcome ε α} (h : Reads x d o) :
    (exec x d).1 = o := congrArg Prod.fst h

theorem reads_ofOutcome (o : Outcome ε α) (d : Disk) : Reads (Cmd.ofOutcome o) d o := rfl

theorem reads_pure (a : α) (d : Disk) : Reads (pure a : FileCmd ε α) d (.ok a) := rfl

theorem reads_readToString (p : Path) (d : Disk) : Reads (readToString p) d (textOf (d.read p)) := rfl

theorem reads_exist (p : Path) (d : Disk) : Reads (exist p : FileCmd ε Bool) d (.ok (d.has p)) := rfl

theorem Reads.bind {β : Type} {x : FileCmd ε α} {f : α → FileCmd ε β} {d : Disk} {o : Outcome ε α}
    {g : α → Outcome ε β} (hx : Reads x d o) (hf : ∀ a, Reads (f a) d (g a)) :
    Reads (x >>= f) d (o >>= g) := by
  rw [Reads, exec_bind, hx]
  cases o with
  | error e => rfl
  | ok a => exact hf a

theorem Reads.bind_ok {β : Type} {x : FileCmd ε α} {f : α → FileCmd ε β} {d : Disk} {a : α}
    {o : Outcome ε β} (hx : Reads x d (.ok a)) (hf : Reads (f a) d o) : Reads (x >>= f) d o := by
  rw [Reads, exec_bind, hx]
  exact hf

theorem Reads.bind_error {β : Type} {x : FileCmd ε α} {f : α → FileCmd ε β} {d : Disk}
    {e : Failure ε} (hx : Reads x d (.error e)) : Reads (x >>= f) d (.error e) := by
  rw [Reads, exec_bind, hx]
  rfl

theorem Reads.mapErr {ε' : Type} {f : ε → ε'} {x : FileCmd ε α} {d : Disk} {o : Outcome ε α}
    (hx : Reads x d o) : Reads (Cmd.mapErr f x) d (o.mapErr f) := by
  rw [Reads, exec_mapErr, hx]

theorem Reads.attempt {ε' : Type} {x : FileCmd ε α} {d : Disk} {o : Outcome ε α}
    (hx : Reads x d o) :
    Reads (Cmd.attempt x : FileCmd ε' (Except ε α)) d (Cmd.caught o) := by
  rw [Reads, exec_attempt, hx]

theorem Reads.ite {p : Prop} [Decidable p] {x y : FileCmd ε α} {d : Disk} {o o' : Outcome ε α}
    (hx : Reads x d o) (hy : Reads y d o') :
    Reads (if p then x else y) d (if p then o else o') := by
  split_ifs
  · exact hx
  · exact hy

/-- Reading a text cannot panic. -/
theorem exists_caught_textOf (r : Except IoError Bytes) :
    ∃ t, (Cmd.caught (textOf r) : Outcome ε (Except IoError String)) = .ok t := by
  rcases r with e | b
  · exact ⟨_, rfl⟩
  · simp only [textOf, replied, ok_bind]
    cases fromUtf8 b with
    | none => exact ⟨_, rfl⟩
    | some s => exact ⟨_, rfl⟩

theorem textOf_utf8 (s : String) : textOf (.ok (utf8 s)) = .ok s := by
  unfold textOf
  change Outcome.okOr _ (fromUtf8 (utf8 s)) = _
  rw [fromUtf8_utf8, Outcome.okOr_some]

end Fs

end Rust
