import SecureABE.Audit.Reading
import SecureABE.Core.Ideal
import SecureABE.Foundations.Interleaving
import Mathlib.Data.List.Chain

/-!
# Calls of `record` at the same time

`writeln!` on a file hands over the text of an event and the end of the line one after the other, so a
call of `record` is three accesses: it opens the log, appends the text and appends the line end. Calls
of several processes take turns, and a call may be cut off.

What the log holds then depends only on the order of the appends (`appends`): `contents_interleave`. It
is read back as a whole exactly when no text comes directly after another (`Apart`), and then with the
event of every call that has appended its text (`keeps_iff`). Otherwise there is a line of two events,
and nothing at all is read (`readAll_of_not_apart`).
-/

namespace SecureABE.Audit

open Rust SecureABE.Core

variable {ι : Type}

/-! ## Appends -/

/-- What a call appends to the log. -/
inductive Mark (ι : Type)
  /-- The text of the event of a call. -/
  | text (i : ι)
  | newline
  deriving DecidableEq

def Mark.IsText : Mark ι → Prop
  | .text _ => True
  | .newline => False

instance (m : Mark ι) : Decidable m.IsText := by
  cases m <;> unfold Mark.IsText <;> infer_instance

/-- The call whose text it is. -/
def Mark.call? : Mark ι → Option ι
  | .text i => some i
  | .newline => none

/-- What the turn of a call appends: the first opens the log, the second and the third append. -/
def markOf : ι × ℕ → Option (Mark ι)
  | (i, 1) => some (.text i)
  | (_, 2) => some .newline
  | _ => none

/-- The appends of a schedule, in order. -/
def appends [DecidableEq ι] (sched : List ι) : List (Mark ι) :=
  (Prog.turns (fun _ => 0) sched).filterMap markOf

/-- The calls in the order in which they have appended the texts of their events. -/
def recorded [DecidableEq ι] (sched : List ι) : List ι := (appends sched).filterMap Mark.call?

/-- **Between any two texts** there is the end of a line. -/
def Apart [DecidableEq ι] (sched : List ι) : Prop :=
  (appends sched).IsChain fun m m' => ¬ (m.IsText ∧ m'.IsText)

instance [DecidableEq ι] (sched : List ι) : Decidable (Apart sched) := by
  unfold Apart
  infer_instance

/-- A call has appended its text when it has had two turns. -/
theorem mem_recorded [DecidableEq ι] {sched : List ι} {i : ι} :
    i ∈ recorded sched ↔ 2 ≤ sched.count i := by
  simp only [recorded, appends, List.mem_filterMap]
  constructor
  · rintro ⟨m, ⟨⟨j, k⟩, hturn, hmark⟩, hcall⟩
    have hlt := (Prog.mem_turns.1 hturn).2
    match k, hmark with
    | 1, rfl =>
      obtain rfl := Option.some.inj hcall
      omega
    | 2, rfl => cases hcall
  · intro h
    exact ⟨.text i, ⟨(i, 1), Prog.mem_turns.2 ⟨by omega, by omega⟩, rfl⟩, rfl⟩

theorem nodup_recorded [DecidableEq ι] (sched : List ι) : (recorded sched).Nodup := by
  unfold recorded appends
  rw [List.filterMap_filterMap]
  apply (Prog.nodup_turns _ sched).filterMap
  have hturn : ∀ (t : ι × ℕ) (i : ι), i ∈ (markOf t).bind Mark.call? → t = (i, 1) := by
    rintro ⟨j, k⟩ i h
    match k, h with
    | 0, h => cases h
    | 1, h => rw [Option.some.inj h]
    | 2, h => cases h
    | k + 3, h => cases h
  intro t t' i h h'
  rw [hturn t i h, hturn t' i h']

/-! ## Lines -/

/-- The calls whose texts stand on each line, the first line going on with those of `line`. -/
def linesOf (line : List ι) : List (Mark ι) → List (List ι)
  | [] => if line = [] then [] else [line]
  | .text i :: ms => linesOf (line ++ [i]) ms
  | .newline :: ms => line :: linesOf [] ms

theorem flatten_linesOf (line : List ι) (ms : List (Mark ι)) :
    (linesOf line ms).flatten = line ++ ms.filterMap Mark.call? := by
  induction ms generalizing line with
  | nil =>
    unfold linesOf
    split_ifs with h
    · rw [h]
      rfl
    · simp
  | cons m ms ih =>
    cases m with
    | text i => rw [linesOf, ih, List.append_assoc]; rfl
    | newline => rw [linesOf, List.flatten_cons, ih]; rfl

/-- **A line of two texts** is where one comes directly after another. -/
theorem forall_linesOf_iff (line : List ι) (ms : List (Mark ι)) :
    (∀ l ∈ linesOf line ms, l.length ≤ 1) ↔
      (line.map Mark.text ++ ms).IsChain fun m m' => ¬ (m.IsText ∧ m'.IsText) := by
  induction ms generalizing line with
  | nil =>
    rw [linesOf, List.append_nil]
    rcases line with _ | ⟨i, _ | ⟨j, line⟩⟩
    · simp
    · simp
    · simp [Mark.IsText]
  | cons m ms ih =>
    cases m with
    | text i =>
      rw [linesOf, ih, List.map_append, List.append_assoc]
      rfl
    | newline =>
      rw [linesOf, List.forall_mem_cons, ih, List.map_nil, List.nil_append, List.isChain_append]
      have hline : line.length ≤ 1 ↔
          (line.map Mark.text).IsChain fun m m' => ¬ (m.IsText ∧ m'.IsText) := by
        rcases line with _ | ⟨i, _ | ⟨j, line⟩⟩
        · simp
        · simp
        · simp [Mark.IsText]
      have hrest : (Mark.newline :: ms).IsChain (fun m m' : Mark ι => ¬ (m.IsText ∧ m'.IsText)) ↔
          ms.IsChain fun m m' => ¬ (m.IsText ∧ m'.IsText) := by
        cases ms with
        | nil => simp
        | cons m ms => simp [Mark.IsText]
      rw [hline, hrest]
      simp [Mark.IsText]

/-! ## The log -/

section Log

variable (D : Codec) (log : AuditLog) (events : ι → AuditEvent)

/-- What is left of a call of `record` after a number of turns. -/
def recordStage (i : ι) : ℕ → FileCmd AuditError Unit
  | 0 => log.record D (events i)
  | 1 => do
    Cmd.mapErr .io (Fs.append log.path (utf8 (D.toString (events i).toJson)))
    Cmd.mapErr .io (Fs.append log.path (utf8 "\n"))
  | 2 => Cmd.mapErr .io (Fs.append log.path (utf8 "\n"))
  | _ => pure ()

/-- What a turn does to the disk. -/
def recordEffect (i : ι) : ℕ → Disk → Disk
  | 0, d => d.append log.path []
  | 1, d => d.append log.path (utf8 (D.toString (events i).toJson))
  | 2, d => d.append log.path (utf8 "\n")
  | _, d => d

theorem staged_record : Prog.Staged FileOp.handle (recordStage D log events) (recordEffect D log events) where
  turn i k d := by
    match k with
    | 0 => rfl
    | 1 => rfl
    | 2 => rfl
    | k + 3 => rfl

/-- A call has returned when it has had three turns. -/
theorem le_of_recordStage_eq {i : ι} {k : ℕ} {o : Outcome AuditError Unit}
    (h : recordStage D log events i k = Prog.pure o) : 3 ≤ k := by
  match k, h with
  | 0, h => cases h
  | 1, h => cases h
  | 2, h => cases h
  | k + 3, _ => omega

/-- The bytes of an append. -/
def Mark.bytes : Mark ι → Bytes
  | .text i => utf8 (D.toString (events i).toJson)
  | .newline => utf8 "\n"

/-- **What is left** of the calls after a schedule, and the disk. -/
def recording [DecidableEq ι] (sched : List ι) (d : Disk) : (ι → FileCmd AuditError Unit) × Disk :=
  Prog.interleave FileOp.handle sched (fun i => log.record D (events i)) d

theorem recording_eq [DecidableEq ι] (sched : List ι) (d : Disk) :
    recording D log events sched d = (fun i => recordStage D log events i (0 + sched.count i),
      (Prog.turns (fun _ => 0) sched).foldl (fun d t => recordEffect D log events t.1 t.2 d) d) :=
  Prog.interleave_stages (staged_record D log events) sched (fun _ => 0) d

/-- The turns append their marks to the log, and touch nothing else. -/
theorem foldl_recordEffect (ts : List (ι × ℕ)) (d : Disk) :
    (ts.foldl (fun d t => recordEffect D log events t.1 t.2 d) d).contents log.path =
        d.contents log.path ++ (ts.filterMap markOf).flatMap (Mark.bytes D events) ∧
      (ts.foldl (fun d t => recordEffect D log events t.1 t.2 d) d).dirs = d.dirs := by
  induction ts generalizing d with
  | nil => simp
  | cons t ts ih =>
    obtain ⟨i, k⟩ := t
    have hturn : (recordEffect D log events i k d).contents log.path =
          d.contents log.path ++ ((markOf (i, k)).toList).flatMap (Mark.bytes D events) ∧
        (recordEffect D log events i k d).dirs = d.dirs := by
      match k with
      | 0 => exact ⟨Disk.contents_append_self _ _ _, rfl⟩
      | 1 => exact ⟨(Disk.contents_append_self _ _ _).trans (by simp [markOf, Mark.bytes]), rfl⟩
      | 2 => exact ⟨(Disk.contents_append_self _ _ _).trans (by simp [markOf, Mark.bytes]), rfl⟩
      | k + 3 => exact ⟨by simp [recordEffect, markOf], rfl⟩
    rw [List.foldl_cons, (ih _).1, (ih _).2, hturn.1, hturn.2]
    refine ⟨?_, rfl⟩
    rw [List.filterMap_cons]
    cases markOf (i, k) <;> simp

variable [DecidableEq ι] {d : Disk} (hnew : d.has log.path = false)
include hnew

/-- **The log holds the appends** one after another. -/
theorem contents_recording (sched : List ι) :
    (recording D log events sched d).2.contents log.path =
      (appends sched).flatMap (Mark.bytes D events) ∧ log.path ∉ (recording D log events sched d).2.dirs := by
  obtain ⟨hfile, hdir⟩ := Bool.or_eq_false_iff.1 hnew
  have hlookup : d.files.lookup log.path = none := AList.lookup_eq_none.2 (by simpa using hfile)
  have hempty : d.contents log.path = [] := by rw [Disk.contents, hlookup, Option.getD_none]
  have hfold := foldl_recordEffect D log events (Prog.turns (fun _ => 0) sched) d
  rw [hempty, List.nil_append] at hfold
  rw [recording_eq]
  refine ⟨hfold.1, ?_⟩
  rw [hfold.2]
  simpa using hdir

end Log

/-! ## Reading back -/

section Reading

variable {D : Codec} (hP : D.PrintsCompact) (events : ι → AuditEvent)
include hP

/-- The lines of what is appended are those of the texts. -/
theorem linesFrom_appends (line : List ι) (ms : List (Mark ι)) :
    linesFrom (utf8 (textOf D (line.map events))) (ms.flatMap (Mark.bytes D events)) =
      (linesOf line ms).map fun l => utf8 (textOf D (l.map events)) := by
  induction ms generalizing line with
  | nil =>
    rw [List.flatMap_nil, linesFrom, linesOf]
    cases line with
    | nil => rfl
    | cons i line =>
      rw [if_neg (List.cons_ne_nil i line), List.map_cons, if_neg (utf8_textOf_cons hP _ _)]
      rfl
  | cons m ms ih =>
    rw [List.flatMap_cons]
    cases m with
    | text i =>
      have htext : utf8 (textOf D (line.map events)) ++ utf8 (D.toString (events i).toJson) =
          utf8 (textOf D ((line ++ [i]).map events)) := by
        rw [List.map_append, List.map_singleton, textOf_append, textOf_singleton, utf8_append]
      rw [Mark.bytes, linesFrom_append (hP.newline_notMem _), htext, ih, linesOf]
    | newline =>
      rw [Mark.bytes, utf8_newline, List.singleton_append, linesFrom_newline,
        dropReturn_of_ne (getLast_utf8_textOf hP _), linesOf, List.map_cons]
      exact congrArg _ (ih [])

variable (log : AuditLog) [DecidableEq ι] {d : Disk} (hnew : d.has log.path = false)
include hnew

/-- What is read of the log after a schedule. -/
theorem exec_readAll_recording (sched : List ι) :
    (Fs.exec (log.readAll D) (recording D log events sched d).2).1 =
      readLines D (((linesOf [] (appends sched)).map (List.map events)).map
        fun line => utf8 (textOf D line)) [] := by
  obtain ⟨hcontents, hdir⟩ := contents_recording D log events hnew sched
  rw [log.exec_readAll D hdir, hcontents, byteLines, List.map_map]
  exact congrArg (readLines D · []) (linesFrom_appends hP events [] (appends sched))

variable (hR : D.ReadsCompact)
include hR

/-- Between any two texts there is the end of a line: **every event is read**. -/
theorem readAll_of_apart {sched : List ι} (h : Apart sched) :
    (Fs.exec (log.readAll D) (recording D log events sched d).2).1 =
      .ok ((recorded sched).map events) := by
  have hlines : ∀ line ∈ (linesOf [] (appends sched)).map (List.map events), line.length ≤ 1 := by
    intro line hline
    obtain ⟨l, hl, rfl⟩ := List.mem_map.1 hline
    rw [List.length_map]
    exact (forall_linesOf_iff [] (appends sched)).2 h l hl
  rw [exec_readAll_recording hP events log hnew, readLines_lines hP hR hlines, List.nil_append,
    ← List.map_flatten, flatten_linesOf, List.nil_append, recorded]

/-- A text comes directly after another: **nothing is read**. -/
theorem readAll_of_not_apart {sched : List ι} (h : ¬ Apart sched) :
    ∃ msg, (Fs.exec (log.readAll D) (recording D log events sched d).2).1 =
      Outcome.err (.serde msg) := by
  rw [exec_readAll_recording hP events log hnew]
  refine readLines_lines_error hP hR (fun hlines => h ?_) []
  apply (forall_linesOf_iff [] (appends sched)).1
  intro l hl
  have hlength := hlines (l.map events) (List.mem_map_of_mem hl)
  rwa [List.length_map] at hlength

end Reading

/-! ## Acknowledged events -/

section Keeps

variable [DecidableEq ι] (D : Codec) (log : AuditLog) (events : ι → AuditEvent)

/-- **The log keeps what it has acknowledged**: reading it returns the events of some calls, each once and
in the order in which their texts were appended, among them every call that has returned `Ok`. -/
def Keeps (sched : List ι) (d : Disk) : Prop :=
  ∃ kept : List ι, kept.Nodup ∧ kept.Sublist (recorded sched) ∧
    (∀ i, (recording D log events sched d).1 i = Prog.pure (.ok ()) → i ∈ kept) ∧
    (Fs.exec (log.readAll D) (recording D log events sched d).2).1 = .ok (kept.map events)

variable {D} (hP : D.PrintsCompact) (hR : D.ReadsCompact) {d : Disk} (hnew : d.has log.path = false)
include hP hR hnew

/-- **Acknowledged events are kept** in a run exactly when between any two texts there is the end of a
line. -/
theorem keeps_iff (sched : List ι) : Keeps D log events sched d ↔ Apart sched := by
  constructor
  · rintro ⟨kept, -, -, -, hread⟩
    by_contra h
    obtain ⟨msg, hmsg⟩ := readAll_of_not_apart hP events log hnew hR h
    rw [hmsg] at hread
    cases hread
  · intro h
    refine ⟨recorded sched, nodup_recorded sched, List.Sublist.refl _, fun i hi => ?_,
      readAll_of_apart hP events log hnew hR h⟩
    rw [recording_eq] at hi
    have hturns := le_of_recordStage_eq D log events hi
    exact mem_recorded.2 (by omega)

end Keeps

/-! ### An example -/

/-- Two events. -/
def exampleEvents (i : Bool) : AuditEvent :=
  { timestampUnix := 0, actor := "cli", action := if i then "decrypt" else "revoke_user",
    subject := "alice", detail := "" }

/-- The events are appended one after the other, and the second call is cut off before its line ends. -/
theorem keeps_iff_exampleEvents :
    Keeps serdeJson ⟨⟨["audit.log"]⟩⟩ exampleEvents [true, true, true, false, false] ⟨∅, []⟩ ↔
      Apart [true, true, true, false, false] :=
  keeps_iff ⟨⟨["audit.log"]⟩⟩ exampleEvents printsCompact_serdeJson readsCompact_serdeJson (by decide) _

/-- Both calls return, but the second text comes directly after the first. -/
theorem not_keeps_exampleEvents :
    (∀ i, (recording serdeJson ⟨⟨["audit.log"]⟩⟩ exampleEvents [false, true, false, true, false, true]
        ⟨∅, []⟩).1 i = Prog.pure (.ok ())) ∧
      ¬ Keeps serdeJson ⟨⟨["audit.log"]⟩⟩ exampleEvents [false, true, false, true, false, true]
        ⟨∅, []⟩ := by
  constructor
  · intro i
    rw [recording_eq]
    cases i <;> rfl
  · rintro ⟨kept, -, -, -, hread⟩
    have hadjacent : ¬ Apart [false, true, false, true, false, true] := by decide
    obtain ⟨msg, hmsg⟩ := readAll_of_not_apart printsCompact_serdeJson exampleEvents
      ⟨⟨["audit.log"]⟩⟩ (d := ⟨∅, []⟩) (by decide) readsCompact_serdeJson hadjacent
    rw [hmsg] at hread
    cases hread

end SecureABE.Audit
