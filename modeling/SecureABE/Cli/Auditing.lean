import SecureABE.Audit.Reading
import SecureABE.Cli.Crashes

/-!
# Effects and their events

The commands record an event after they have changed something. If an access fails in between, or the
command is cut off, the change stands and the log says nothing of it. The log has the event exactly if
the accesses up to the append of its text succeed, two from the change on and three for a package
(`audited_iff`). What becomes of the end of its line does not matter.

What is said of a command is said of the disk that it leaves and of its trail: the accesses that it
makes, each with its fault.
-/

namespace SecureABE.Cli

open Rust SecureABE.Core SecureABE.Policy SecureABE.Revocation SecureABE.Authorities SecureABE.Audit
  SecureABE.Envelope SecureABE.Storage

variable {F G₁ G₂ Gₜ : Type} [Field F] [DecidableEq F] [AddCommGroup G₁] [Module F G₁]
  [AddCommGroup G₂] [Module F G₂] [AddCommGroup Gₜ] [Module F Gₜ]
variable (C : Curve F G₁ G₂ Gₜ) (A : Cipher) (D : Codec) (cwd data : Path)

/-! ## Effects -/

/-- The accesses of a command, each with its fault. -/
def Call.trail (call : Call F) (faults : List (Option Fault)) (d : Disk) : Trail :=
  (Prog.runFaulty FileOp.faulty.logged (call.command.run C A D cwd data call.fresh) faults (d, [])).2.2

/-- The access by which a command changes what it is there to change: it writes a key file, the wrapped
key of a package (without it the package cannot be read), the decrypted document or the revocation
list. -/
def Call.IsEffect (call : Call F) : FileOp → Prop
  | .write p _ => match call.command with
    | .setup | .registerAuthority .. => False
    | .issue args => p = keyFile data args.user
    | .encrypt .. => p = (packageStore data).keyPath (newId D call.fresh.stamp)
    | .decrypt _ _ out => p = cwd.join out
    | .revokeAttribute _ | .revokeUser _ => p = revocationPath data
  | _ => False

/-- The event is the one for the effect of a command, with any detail. -/
def Call.Announces (call : Call F) (event : AuditEvent) : Prop :=
  match call.command with
  | .setup | .registerAuthority .. => False
  | .issue args => event.actor = args.authority ∧ event.action = "ISSUE_KEY" ∧ event.subject = args.user
  | .encrypt .. => event.action = "ENCRYPT" ∧ event.subject = newId D call.fresh.stamp
  | .decrypt id user _ =>
    event.actor = user ∧ event.action = "DECRYPT_SUCCESS" ∧ event.subject = id
  | .revokeAttribute attr => event.action = "REVOKE_ATTRIBUTE" ∧ event.subject = attr
  | .revokeUser user => event.action = "REVOKE_USER" ∧ event.subject = user

/-- The accesses from the effect of a command to the text of its event: the log is opened and the text
appended, and for a package the manifest is written before. -/
def Call.lag (call : Call F) : ℕ :=
  match call.command with
  | .encrypt .. => 3
  | _ => 2

/-- By the step an effect is achieved. -/
def Done (effect : FileOp → Prop) (step : FileOp × Option Fault) : Prop := effect step.1 ∧ step.2 = none

/-- On the trail an effect was achieved. -/
def Took (effect : FileOp → Prop) (trail : Trail) : Prop := ∃ step ∈ trail, Done effect step

/-- The accesses of a trail after the last effect. -/
def Since (effect : FileOp → Prop) (trail since : Trail) : Prop :=
  ∃ before step, trail = before ++ step :: since ∧ Done effect step ∧ ∀ later ∈ since, ¬ Done effect later

/-- The first `lag` accesses after the last effect are there, and none of them has failed. -/
def Followed (effect : FileOp → Prop) (lag : ℕ) (trail : Trail) : Prop :=
  ∃ since, Since effect trail since ∧ lag ≤ since.length ∧ ∀ step ∈ since.take lag, step.2 = none

/-- After what the log held, it has an event that announces the effect. It held the bytes `old` before
the command, unless the command has replaced them. -/
def Announced (announces : AuditEvent → Prop) (old : Bytes) (s : Disk × Trail) : Prop :=
  ∃ event, announces event ∧ replaced (auditPath data) old s.2 ++ utf8 (D.toString event.toJson) <+:
    s.1.contents (auditPath data)

/-- The command has changed what it is there to change: by its effect a file has other contents than it
had. -/
def Call.Changed (call : Call F) (faults : List (Option Fault)) (d : Disk) : Prop :=
  ∃ p b, (FileOp.write p b, none) ∈ call.trail C A D cwd data faults d ∧
    call.IsEffect D cwd data (.write p b) ∧ d.files.lookup p ≠ some b

/-- If the command has changed something, the event for it is in the log. -/
def Call.Audited (call : Call F) (faults : List (Option Fault)) (d : Disk) : Prop :=
  call.Changed C A D cwd data faults d →
    Announced D data (call.Announces D) (d.contents (auditPath data))
      ((call.execFaulty C A D cwd data faults d).2, call.trail C A D cwd data faults d)

/-- If the command has changed something, the accesses up to the text of its event succeed. -/
def Call.Undisturbed (call : Call F) (faults : List (Option Fault)) (d : Disk) : Prop :=
  call.Changed C A D cwd data faults d →
    Followed (call.IsEffect D cwd data) call.lag (call.trail C A D cwd data faults d)

/-! ## Steps of a trail -/

section Steps

variable {effect : FileOp → Prop} {trail since : Trail} {step : FileOp × Option Fault} {lag : ℕ}

theorem took_concat : Took effect (trail ++ [step]) ↔ Took effect trail ∨ Done effect step := by
  simp [Took, or_and_right, exists_or]

/-- An effect is followed by nothing yet. -/
theorem eq_nil_of_since_concat (hstep : Done effect step) (h : Since effect (trail ++ [step]) since) :
    since = [] := by
  obtain ⟨before, first, htrail, -, hlater⟩ := h
  rcases since.eq_nil_or_concat with rfl | ⟨since, last, rfl⟩
  · rfl
  · rw [List.concat_eq_append, ← List.cons_append, ← List.append_assoc] at htrail
    obtain ⟨-, hlast⟩ := List.append_inj' htrail rfl
    rw [List.concat_eq_append, ← hlast] at hlater
    exact absurd hstep (hlater step (List.mem_append_right _ (List.mem_singleton_self step)))

/-- Another access is one more after the last effect. -/
theorem since_concat (hstep : ¬ Done effect step) :
    Since effect (trail ++ [step]) since ↔
      ∃ since', Since effect trail since' ∧ since = since' ++ [step] := by
  constructor
  · rintro ⟨before, first, htrail, hfirst, hlater⟩
    rcases since.eq_nil_or_concat with rfl | ⟨since, last, rfl⟩
    · obtain ⟨-, hlast⟩ := List.append_inj' htrail rfl
      rw [← List.singleton_inj.1 hlast] at hfirst
      exact absurd hfirst hstep
    · rw [List.concat_eq_append] at htrail hlater ⊢
      rw [← List.cons_append, ← List.append_assoc] at htrail
      obtain ⟨htrail, hlast⟩ := List.append_inj' htrail rfl
      exact ⟨since, ⟨before, first, htrail, hfirst, fun later hmem => hlater later
        (List.mem_append_left _ hmem)⟩, by rw [hlast]⟩
  · rintro ⟨since, ⟨before, first, rfl, hfirst, hlater⟩, rfl⟩
    refine ⟨before, first, by rw [List.append_assoc, List.cons_append], hfirst, fun later hmem => ?_⟩
    rcases List.mem_append.1 hmem with hmem | hmem
    · exact hlater later hmem
    · rwa [List.mem_singleton.1 hmem]

theorem took_of_since (h : Since effect trail since) : Took effect trail := by
  obtain ⟨before, step, rfl, hstep, -⟩ := h
  exact ⟨step, by simp, hstep⟩

theorem exists_since (h : Took effect trail) : ∃ since, Since effect trail since := by
  induction trail using List.reverseRecOn with
  | nil =>
    obtain ⟨step, hmem, -⟩ := h
    cases hmem
  | append_singleton trail step ih =>
    by_cases hstep : Done effect step
    · exact ⟨[], trail, step, rfl, hstep, fun later hmem => by cases hmem⟩
    · obtain ⟨since, hsince⟩ := ih ((took_concat.1 h).resolve_right hstep)
      exact ⟨since ++ [step], (since_concat hstep).2 ⟨since, hsince, rfl⟩⟩

/-- What comes after the first accesses does not matter. -/
theorem Followed.concat (h : Followed effect lag trail) (hstep : ¬ Done effect step) :
    Followed effect lag (trail ++ [step]) := by
  obtain ⟨since, hsince, hlength, hnone⟩ := h
  refine ⟨since ++ [step], (since_concat hstep).2 ⟨since, hsince, rfl⟩, ?_, ?_⟩
  · rw [List.length_append]
    omega
  · rwa [List.take_append_of_le_length hlength]

end Steps

/-! ## The course of a command

A command first only reads (`Quiet`). Later each access that fails ends it, and what counts is how many
have succeeded since the effect (`Span`), until its event is recorded (`Recorded`). Wherever it ends, it
is `Settled`. -/

section Course

variable (effect : FileOp → Prop) (announces : AuditEvent → Prop) (lag : ℕ) (old : Bytes)

/-- No effect, and nothing more in the log. -/
def Quiet (s : Disk × Trail) : Prop := ¬ Took effect s.2 ∧ Extended (auditPath data) old [] s

/-- After the last effect there are from `least` to `most` accesses, none of which has failed, and there
is nothing more in the log. -/
structure Span (least most : ℕ) (s : Disk × Trail) : Prop where
  log : Extended (auditPath data) old [] s
  least_le : ∀ since, Since effect s.2 since → least ≤ since.length
  le_most : ∀ since, Since effect s.2 since → since.length ≤ most
  smooth : ∀ since, Since effect s.2 since → ∀ step ∈ since, step.2 = none

/-- After an effect, the log has the event exactly if the accesses have led up to it. -/
def Settled (s : Disk × Trail) : Prop :=
  Took effect s.2 → (Announced D data announces old s ↔ Followed effect lag s.2)

/-- The event is in the log, and after an effect the accesses have led up to it. -/
def Recorded (s : Disk × Trail) : Prop :=
  (∃ event b, announces event ∧ utf8 (D.toString event.toJson) <+: b ∧
    Extended (auditPath data) old b s) ∧ (Took effect s.2 → Followed effect lag s.2)

/-- Wherever the program is cut off or fails it is settled, and otherwise it ends as `Q` says. -/
abbrev Runs {ε α : Type} (x : FileCmd ε α) (Q : α → Disk × Trail → Prop) (s : Disk × Trail) : Prop :=
  Cmd.Safe FileOp.faulty.logged (Settled D data effect announces lag old)
    (Settled D data effect announces lag old) x Q s

variable {C A D cwd data effect announces lag old} {ε : Type} {s : Disk × Trail} {least most : ℕ}

theorem settled_of_not_took (h : ¬ Took effect s.2) : Settled D data effect announces lag old s :=
  fun ht => absurd ht h

theorem Quiet.settled (h : Quiet data effect old s) : Settled D data effect announces lag old s :=
  settled_of_not_took h.1

theorem Quiet.span (h : Quiet data effect old s) : Span data effect old 0 0 s :=
  ⟨h.2, fun _ hs => absurd (took_of_since hs) h.1, fun _ hs => absurd (took_of_since hs) h.1,
    fun _ hs => absurd (took_of_since hs) h.1⟩

theorem Recorded.settled (h : Recorded D data effect announces lag old s) :
    Settled D data effect announces lag old s := fun htook => by
  obtain ⟨⟨event, b, hevent, hprefix, hlog⟩, hfollowed⟩ := h
  refine iff_of_true ⟨event, hevent, ?_⟩ (hfollowed htook)
  rw [hlog]
  exact (List.prefix_append_right_inj _).2 hprefix

/-- What is in the log does not begin with an event. -/
theorem not_announced {b : Bytes} (hlog : Extended (auditPath data) old b s)
    (hb : ∀ event : AuditEvent, ¬ utf8 (D.toString event.toJson) <+: b) :
    ¬ Announced D data announces old s := by
  rintro ⟨event, -, hprefix⟩
  rw [hlog] at hprefix
  exact hb event ((List.prefix_append_right_inj _).1 hprefix)

/-! ### Steps -/

/-- An access that is no effect. -/
theorem not_took_concat {op : FileOp} (hop : ¬ effect op) (φ : Option Fault) (h : ¬ Took effect s.2) :
    ¬ Took effect (FileOp.faulty.logged φ op s).2.2 := by
  rw [Device.logged, took_concat]
  rintro (ht | ⟨heff, -⟩)
  · exact h ht
  · exact hop heff

theorem Span.reset {op : FileOp} (h : Span data effect old least most s) (hop : effect op)
    (happend : appendedBy (auditPath data) (op, none) = []) :
    Span data effect old 0 0 (FileOp.faulty.logged none op s).2 := by
  have hnil : ∀ since, Since effect (s.2 ++ [(op, none)]) since → since = [] := fun since hs =>
    eq_nil_of_since_concat ⟨hop, rfl⟩ hs
  refine ⟨h.log.concat_nil happend, fun _ _ => Nat.zero_le _, fun since hs => ?_, fun since hs => ?_⟩
  · exact (congrArg List.length (hnil since hs)).le
  · rw [hnil since hs]
    exact fun step hmem => absurd hmem List.not_mem_nil

/-- From the start, whether the access is the effect or not. -/
theorem Quiet.next {op : FileOp} (h : Quiet data effect old s)
    (happend : appendedBy (auditPath data) (op, none) = []) :
    Span data effect old 0 0 (FileOp.faulty.logged none op s).2 := by
  by_cases hop : effect op
  · exact h.span.reset hop happend
  · exact Quiet.span ⟨not_took_concat hop none h.1, h.2.concat_nil happend⟩

theorem Span.other {op : FileOp} (h : Span data effect old least most s) (hop : ¬ effect op)
    (happend : appendedBy (auditPath data) (op, none) = []) :
    Span data effect old (least + 1) (most + 1) (FileOp.faulty.logged none op s).2 := by
  have hstep : ∀ since, Since effect (s.2 ++ [(op, none)]) since →
      ∃ since', Since effect s.2 since' ∧ since = since' ++ [(op, none)] := fun since hs =>
    (since_concat fun hdone => hop hdone.1).1 hs
  refine ⟨h.log.concat_nil happend, fun since hs => ?_, fun since hs => ?_, fun since hs => ?_⟩
  all_goals obtain ⟨since', hs', rfl⟩ := hstep since hs
  · rw [List.length_append]
    exact Nat.add_le_add_right (h.least_le since' hs') 1
  · rw [List.length_append]
    exact Nat.add_le_add_right (h.le_most since' hs') 1
  · intro step hmem
    rcases List.mem_append.1 hmem with hmem | hmem
    · exact h.smooth since' hs' step hmem
    · rw [List.mem_singleton.1 hmem]

/-- Whatever follows on a recorded event, it stays recorded. -/
theorem Recorded.append (h : Recorded D data effect announces lag old s) (φ : Option Fault) {b : Bytes}
    (hop : ¬ effect (.append (auditPath data) b)) :
    Recorded D data effect announces lag old (FileOp.faulty.logged φ (.append (auditPath data) b) s).2 := by
  obtain ⟨⟨event, text, hevent, hprefix, hlog⟩, hfollowed⟩ := h
  refine ⟨⟨event, _, hevent, hprefix.trans (List.prefix_append _ _),
    hlog.concat (fun _ hwrite => (by cases hwrite)) φ⟩, fun htook => ?_⟩
  have hstep : ¬ Done effect (.append (auditPath data) b, φ) := fun hdone => hop hdone.1
  exact (hfollowed ((took_concat.1 htook).resolve_right hstep)).concat hstep

/-! ### Programs -/

/-- A program that only reads. -/
theorem runs_of_onlyReads (heffect : ∀ op, effect op → ¬ op.IsRead) {α : Type} {x : FileCmd ε α}
    {V : α → Prop} (hx : Fs.OnlyReads x V) (h : Quiet data effect old s) :
    Runs D data effect announces lag old x (fun a s => Quiet data effect old s ∧ V a) s := by
  refine Cmd.Safe.mono (Cmd.Only.safe (I := Quiet data effect old) hx (fun φ op s hop hs => ?_) h)
    (fun s hs => hs.settled) (fun s hs => hs.settled) fun _ _ hs => hs
  have happend : appendedBy (auditPath data) (op, φ) = [] := by
    cases op <;> first | rfl | cases hop
  exact ⟨not_took_concat (fun heff => heffect op heff hop) φ hs.1, hs.2.concat_nil happend⟩

/-- An access that is no effect, where there has not been one. -/
theorem runs_single_of_not_took {x : FileCmd ε Unit} {op : FileOp} (hx : Fs.Single x op)
    (hop : ¬ effect op) (h : ¬ Took effect s.2) :
    Runs D data effect announces lag old x (fun _ s => ¬ Took effect s.2) s :=
  hx.safe (settled_of_not_took h) (not_took_concat hop none h)
    fun φ => settled_of_not_took (not_took_concat hop (some φ) h)

theorem runs_single_quiet {x : FileCmd ε Unit} {op : FileOp} (hx : Fs.Single x op) (hop : ¬ effect op)
    (happend : appendedBy (auditPath data) (op, none) = []) (h : Quiet data effect old s) :
    Runs D data effect announces lag old x (fun _ => Quiet data effect old) s :=
  hx.safe h.settled ⟨not_took_concat hop none h.1, h.2.concat_nil happend⟩
    fun φ => settled_of_not_took (not_took_concat hop (some φ) h.1)

variable (hD : D.PrintsCompact)
include hD

theorem not_prefix_nil (event : AuditEvent) : ¬ utf8 (D.toString event.toJson) <+: [] := fun h => by
  have htext := utf8_textOf_cons hD event []
  rw [textOf_singleton] at htext
  exact htext (List.prefix_nil.1 h)

/-- The accesses have not led up to the event yet. -/
theorem Span.settled (h : Span data effect old least most s) (hmost : most < lag) :
    Settled D data effect announces lag old s := fun _ => by
  refine iff_of_false (not_announced h.log (not_prefix_nil hD)) ?_
  rintro ⟨since, hsince, hlag, -⟩
  have hle := h.le_most since hsince
  omega

omit hD in
/-- They never will if one of them fails before. -/
theorem Span.settled_fault (h : Span data effect old least most s) (hmost : most < lag) {op : FileOp}
    {φ : Fault} {b : Bytes}
    (hlog : Extended (auditPath data) old b (FileOp.faulty.logged (some φ) op s).2)
    (hb : ∀ event : AuditEvent, ¬ utf8 (D.toString event.toJson) <+: b) :
    Settled D data effect announces lag old (FileOp.faulty.logged (some φ) op s).2 := fun _ => by
  refine iff_of_false (not_announced hlog hb) ?_
  rintro ⟨since, hsince, hlag, hnone⟩
  obtain ⟨since', hsince', rfl⟩ := (since_concat fun hdone => by cases hdone.2).1 hsince
  have hle := h.le_most since' hsince'
  rw [List.take_of_length_le (by rw [List.length_append, List.length_singleton]; omega)] at hnone
  cases hnone _ (List.mem_append_right _ (List.mem_singleton_self _))

/-- An access that does not append to the log, before the event. -/
theorem runs_single {x : FileCmd ε Unit} {op : FileOp} (hx : Fs.Single x op)
    (happend : ∀ φ, appendedBy (auditPath data) (op, φ) = []) (h : Span data effect old least most s)
    (hmost : most < lag) {least' most' : ℕ}
    (hdone : Span data effect old least' most' (FileOp.faulty.logged none op s).2) :
    Runs D data effect announces lag old x (fun _ => Span data effect old least' most') s :=
  hx.safe (h.settled hD hmost) hdone fun φ =>
    h.settled_fault hmost (h.log.concat_nil (happend (some φ))) (not_prefix_nil hD)

/-- The last access before the event is in the log. -/
theorem runs_append {x : FileCmd ε Unit} {event : AuditEvent} (hevent : announces event)
    (hx : Fs.Single x (.append (auditPath data) (utf8 (D.toString event.toJson))))
    (hop : ¬ effect (.append (auditPath data) (utf8 (D.toString event.toJson))))
    (h : Span data effect old most most s) (hlag : lag = most + 1) :
    Runs D data effect announces lag old x (fun _ => Recorded D data effect announces lag old) s := by
  have hwrite : ∀ b, FileOp.append (auditPath data) (utf8 (D.toString event.toJson)) ≠
    .write (auditPath data) b := fun _ hwrite => by cases hwrite
  refine hx.safe (h.settled hD (by omega)) ⟨⟨event, _, hevent, ?_, h.log.concat hwrite none⟩, ?_⟩
    fun φ => h.settled_fault (by omega) (h.log.concat hwrite (some φ)) fun event' => ?_
  · rw [List.nil_append, appendedBy, if_pos rfl]
  · intro htook
    obtain ⟨since, hsince⟩ := exists_since htook
    obtain ⟨since', hsince', rfl⟩ := (since_concat fun hdone => hop hdone.1).1 hsince
    have hlength := h.least_le since' hsince'
    refine ⟨_, hsince, by rw [List.length_append, List.length_singleton]; omega, fun step hmem => ?_⟩
    rcases List.mem_append.1 (List.mem_of_mem_take hmem) with hmem | hmem
    · exact h.smooth since' hsince' step hmem
    · rw [List.mem_singleton.1 hmem]
  · rw [List.nil_append, appendedBy, if_pos rfl]
    exact not_prefix_of_appendPart hD event' event φ.progress

end Course

/-! ## The commands -/

section Commands

variable {C A D cwd data} {effect : FileOp → Prop} {announces : AuditEvent → Prop} {old : Bytes}
  {s : Disk × Trail} {lag : ℕ}
variable (heffect : ∀ op, effect op → ∃ p b, op = .write p b)
include heffect

theorem not_isRead_of_effect {op : FileOp} (h : effect op) : ¬ op.IsRead := by
  obtain ⟨p, b, rfl⟩ := heffect op h
  exact fun hread => hread

theorem not_effect_createDirAll (p : Path) : ¬ effect (.createDirAll p) := fun h => by
  obtain ⟨q, b, hop⟩ := heffect _ h
  cases hop

theorem not_effect_openAppend (p : Path) : ¬ effect (.openAppend p) := fun h => by
  obtain ⟨q, b, hop⟩ := heffect _ h
  cases hop

theorem not_effect_append (p : Path) (b : Bytes) : ¬ effect (.append p b) := fun h => by
  obtain ⟨q, b', hop⟩ := heffect _ h
  cases hop

theorem runs_open (h : Quiet data effect old s) (root : Path) :
    Runs D data effect announces lag old (PackageStore.open root)
      (fun store s => store = ⟨root⟩ ∧ Quiet data effect old s) s :=
  Cmd.Safe.bind (runs_single_quiet (Fs.single_createDirAll root).mapErr
    (not_effect_createDirAll heffect root) (appendedBy_createDirAll _ _ _) h) fun _ _ h =>
      Cmd.safe_pure ⟨rfl, h⟩

/-- An event that announces no effect. -/
theorem runs_recordEvent_of_not_took (h : ¬ Took effect s.2) (event : AuditEvent) :
    Runs D data effect announces lag old (recordEvent D data event) (fun _ s => ¬ Took effect s.2) s := by
  refine Cmd.Safe.mapErr (Cmd.Safe.bind (runs_single_of_not_took (Fs.single_openAppend _).mapErr
    (not_effect_openAppend heffect _) h) fun _ s h => ?_)
  refine Cmd.Safe.bind (runs_single_of_not_took (Fs.single_append _ _).mapErr
    (not_effect_append heffect _ _) h) fun _ s h => ?_
  exact runs_single_of_not_took (Fs.single_append _ _).mapErr (not_effect_append heffect _ _) h

variable (hD : D.PrintsCompact)
include hD

/-- The event of the effect is recorded. -/
theorem runs_recordEvent {event : AuditEvent} (hevent : announces event) {n : ℕ}
    (h : Span data effect old n n s) (hlag : lag = n + 2) :
    Runs D data effect announces lag old (recordEvent D data event)
      (fun _ => Recorded D data effect announces lag old) s := by
  have hopen := not_effect_openAppend heffect (auditPath data)
  refine Cmd.Safe.mapErr (Cmd.Safe.bind (runs_single hD (Fs.single_openAppend _).mapErr
    (appendedBy_openAppend _ _) h (by omega) (h.other hopen rfl)) fun _ s h => ?_)
  refine Cmd.Safe.bind (runs_append hD hevent (Fs.single_append _ _).mapErr
    (not_effect_append heffect _ _) h hlag) fun _ s h => ?_
  have hnewline := not_effect_append heffect (auditPath data) (utf8 "\n")
  exact (Fs.single_append _ _).mapErr.safe h.settled (h.append none hnewline)
    fun φ => (h.append (some φ) hnewline).settled

theorem runs_cmdIssue (args : IssueArgs) (fresh : Fresh F)
    (hkey : ∀ b, effect (.write (keyFile data args.user) b))
    (hevent : ∀ detail, announces (fresh.event args.authority "ISSUE_KEY" args.user detail))
    (h : Quiet data effect old s) :
    Runs D data effect announces 2 old (cmdIssue C D data args fresh)
      (fun _ => Recorded D data effect announces 2 old) s := by
  refine Cmd.Safe.bind (runs_of_onlyReads (fun _ => not_isRead_of_effect heffect)
    (onlyReads_prepareIssue C D data args fresh) h) fun key s hs => ?_
  refine Cmd.Safe.bind (runs_single hD (Fs.single_write _ _).mapErr (appendedBy_write _ _ _)
    hs.1.span Nat.two_pos (hs.1.next rfl)) fun _ s h => ?_
  refine Cmd.Safe.bind (Q := fun _ => Span data effect old 0 0) ?_ fun _ s h =>
    runs_recordEvent heffect hD (hevent _) h rfl
  refine Cmd.Safe.bind (runs_single hD (Fs.single_createDirAll _).mapErr (appendedBy_createDirAll _ _)
    h Nat.two_pos (h.other (not_effect_createDirAll heffect _) rfl)) fun _ s h => ?_
  exact runs_single hD (Fs.single_write _ _).mapErr (appendedBy_write _ _ _) h Nat.one_lt_two
    (h.reset (hkey _) rfl)

omit [DecidableEq F] in
/-- The parameters are saved before, and they are no effect. -/
theorem runs_cmdEncrypt (file policy : String) (fresh : Fresh F)
    (hsetup : ∀ b, ¬ effect (.write (setupPath data) b))
    (hkey : ∀ b, effect (.write ((packageStore data).keyPath (newId D fresh.stamp)) b))
    (hmanifest : ∀ b, ¬ effect (.write ((packageStore data).manifestPath (newId D fresh.stamp)) b))
    (hevent : ∀ detail, announces (fresh.event "system" "ENCRYPT" (newId D fresh.stamp) detail))
    (h : Quiet data effect old s) :
    Runs D data effect announces 3 old (cmdEncrypt C A D cwd data file policy fresh)
      (fun _ => Recorded D data effect announces 3 old) s := by
  refine Cmd.Safe.bind (runs_of_onlyReads (fun _ => not_isRead_of_effect heffect)
    (onlyReads_prepareEncrypt C D data policy fresh) h) fun prepared s hs => ?_
  refine Cmd.Safe.bind (runs_single_quiet (Fs.single_write _ _).mapErr (hsetup _)
    (appendedBy_write _ _ _ _) hs.1) fun _ s h => ?_
  refine Cmd.Safe.bind (runs_of_onlyReads (fun _ => not_isRead_of_effect heffect)
    (Fs.onlyReads_read _).mapErr h) fun plaintext s hs => ?_
  refine Cmd.Safe.bind (Q := fun _ => Quiet data effect old)
    (Cmd.safe_ofOutcome (fun _ _ => hs.1) hs.1.settled) ?_
  rintro ⟨package, rng⟩ s h
  apply Cmd.Safe.bind (runs_open heffect h _).mapErr
  intro store s hs
  obtain ⟨rfl, h⟩ := hs
  refine Cmd.Safe.bind (Q := fun id s => id = newId D fresh.stamp ∧ Span data effect old 1 1 s) ?_ ?_
  · refine Cmd.Safe.mapErr (Cmd.Safe.bind (runs_single_quiet (Fs.single_createDirAll _).mapErr
      (not_effect_createDirAll heffect _) (appendedBy_createDirAll _ _ _) h) fun _ s h => ?_)
    refine Cmd.Safe.bind (runs_single hD (Fs.single_write _ _).mapErr (appendedBy_write _ _ _)
      h.span (by decide) (h.next rfl)) fun _ s h => ?_
    refine Cmd.Safe.bind (runs_single hD (Fs.single_write _ _).mapErr (appendedBy_write _ _ _) h
      (by decide) (h.reset (hkey _) rfl)) fun _ s h => ?_
    exact Cmd.Safe.bind (runs_single hD (Fs.single_write _ _).mapErr (appendedBy_write _ _ _) h
      (by decide) (h.other (hmanifest _) rfl)) fun _ s h => Cmd.safe_pure ⟨rfl, h⟩
  · rintro id s ⟨rfl, h⟩
    exact runs_recordEvent heffect hD (hevent _) h rfl

theorem runs_cmdDecrypt (id user out : String) (fresh : Fresh F)
    (hevent : ∀ detail, announces (fresh.event user "DECRYPT_SUCCESS" id detail))
    (h : Quiet data effect old s) :
    Runs D data effect announces 2 old (cmdDecrypt C A D cwd data id user out fresh)
      (fun _ => Recorded D data effect announces 2 old) s := by
  refine Cmd.Safe.bind (runs_of_onlyReads (fun _ => not_isRead_of_effect heffect)
    (onlyReads_loadSetup C D data) h) fun setup s hs => ?_
  refine Cmd.Safe.bind (runs_of_onlyReads (fun _ => not_isRead_of_effect heffect)
    (onlyReads_loadUserKey C D data user) hs.1) fun usk s hs => ?_
  apply Cmd.Safe.bind (runs_open heffect hs.1 _).mapErr
  intro store s hs
  refine Cmd.Safe.bind (runs_of_onlyReads (fun _ => not_isRead_of_effect heffect)
    (onlyReads_get C D store id).mapErr hs.2) fun package s hs => ?_
  have hopen : Fs.OnlyReads (Cmd.ofOutcome (Envelope.open C A D setup.1 usk package)) fun _ => True :=
    Cmd.only_outcome _
  refine Cmd.Safe.bind (runs_of_onlyReads (fun _ => not_isRead_of_effect heffect) hopen.attempt hs.1)
    fun r s hs => ?_
  cases r with
  | ok plaintext =>
    exact Cmd.Safe.bind (runs_single hD (Fs.single_write _ _).mapErr (appendedBy_write _ _ _)
      hs.1.span Nat.two_pos (hs.1.next rfl))
      fun _ s h => runs_recordEvent heffect hD (hevent _) h rfl
  | error e =>
    apply Cmd.Safe.bind (runs_recordEvent_of_not_took heffect hs.1.1 _)
    intro _ s h
    exact Cmd.safe_ofOutcome (fun _ ha => (by cases ha)) (settled_of_not_took h)

omit [Field F] [DecidableEq F]

theorem runs_cmdRevokeAttribute (attr : String) (fresh : Fresh F)
    (hevent : ∀ detail, announces (fresh.event "system" "REVOKE_ATTRIBUTE" attr detail))
    (h : Quiet data effect old s) :
    Runs D data effect announces 2 old (cmdRevokeAttribute D data attr fresh)
      (fun _ => Recorded D data effect announces 2 old) s := by
  refine Cmd.Safe.bind (runs_of_onlyReads (fun _ => not_isRead_of_effect heffect)
    (onlyReads_loadRevocation D data) h) fun rl s hs => ?_
  refine Cmd.Safe.bind (Q := fun _ => Span data effect old 0 0) ?_ fun _ s h =>
    runs_recordEvent heffect hD (hevent _) h rfl
  exact (safe_revokeAttribute D (runs_single hD (Fs.single_write _ _).mapErr (appendedBy_write _ _ _)
    hs.1.span Nat.two_pos (hs.1.next rfl))).mapErr

theorem runs_cmdRevokeUser (user : String) (fresh : Fresh F)
    (hevent : ∀ detail, announces (fresh.event "system" "REVOKE_USER" user detail))
    (h : Quiet data effect old s) :
    Runs D data effect announces 2 old (cmdRevokeUser D data user fresh)
      (fun _ => Recorded D data effect announces 2 old) s := by
  refine Cmd.Safe.bind (runs_of_onlyReads (fun _ => not_isRead_of_effect heffect)
    (onlyReads_loadRevocation D data) h) fun rl s hs => ?_
  refine Cmd.Safe.bind (Q := fun _ => Span data effect old 0 0) ?_ fun _ s h =>
    runs_recordEvent heffect hD (hevent _) h rfl
  exact (safe_revokeUser D (runs_single hD (Fs.single_write _ _).mapErr (appendedBy_write _ _ _)
    hs.1.span Nat.two_pos (hs.1.next rfl))).mapErr

end Commands

variable {C A D cwd data}

/-! ## Exactly when -/

omit [Field F] [DecidableEq F] in
theorem Call.IsEffect.exists_write {call : Call F} (op : FileOp) (h : call.IsEffect D cwd data op) :
    ∃ p b, op = .write p b := by
  cases op with
  | write p b => exact ⟨p, b, rfl⟩
  | _ => exact h.elim

/-- Every command that has an effect runs as it should. -/
theorem Call.runs (hX : D.HexReadsBack) (hD : D.PrintsCompact) (call : Call F) (d : Disk)
    (heffect : ∃ op, call.IsEffect D cwd data op) :
    Runs D data (call.IsEffect D cwd data) (call.Announces D) call.lag (d.contents (auditPath data))
      (call.command.run C A D cwd data call.fresh) (fun _ => Recorded D data (call.IsEffect D cwd data)
        (call.Announces D) call.lag (d.contents (auditPath data))) (d, []) := by
  have hquiet : Quiet data (call.IsEffect D cwd data) (d.contents (auditPath data)) (d, []) :=
    ⟨fun ⟨_, hmem, _⟩ => (by cases hmem), (List.append_nil _).symm⟩
  obtain ⟨command, fresh⟩ := call
  obtain ⟨op, hop⟩ := heffect
  cases command with
  | setup | registerAuthority name controls =>
    obtain ⟨p, b, rfl⟩ := Call.IsEffect.exists_write op hop
    cases hop
  | issue args =>
    exact runs_cmdIssue Call.IsEffect.exists_write hD args fresh (fun _ => rfl)
      (fun _ => ⟨rfl, rfl, rfl⟩) hquiet
  | encrypt file policy =>
    have hid := isName_newId hX fresh.stamp
    refine runs_cmdEncrypt Call.IsEffect.exists_write hD file policy fresh (fun b hsetup => ?_)
      (fun _ => rfl) (fun b hmanifest => ?_) (fun _ => ⟨rfl, rfl⟩) hquiet
    · have hpath : setupPath data = (packageStore data).keyPath (newId D fresh.stamp) := hsetup
      rw [setupPath_eq, wrappedKeyPath_eq hid] at hpath
      cases File.path_injective hpath
    · have hpath : (packageStore data).manifestPath (newId D fresh.stamp) =
        (packageStore data).keyPath (newId D fresh.stamp) := hmanifest
      rw [manifestPath_eq hid, wrappedKeyPath_eq hid] at hpath
      cases File.path_injective hpath
  | decrypt id user out =>
    exact runs_cmdDecrypt Call.IsEffect.exists_write hD id user out fresh
      (fun _ => ⟨rfl, rfl, rfl⟩) hquiet
  | revokeAttribute attr =>
    exact runs_cmdRevokeAttribute Call.IsEffect.exists_write hD attr fresh
      (fun _ => ⟨rfl, rfl⟩) hquiet
  | revokeUser user =>
    exact runs_cmdRevokeUser Call.IsEffect.exists_write hD user fresh
      (fun _ => ⟨rfl, rfl⟩) hquiet

/-- Wherever a command ends, it is settled. -/
theorem Call.settled (hX : D.HexReadsBack) (hD : D.PrintsCompact) (call : Call F)
    (faults : List (Option Fault)) (d : Disk) :
    Settled D data (call.IsEffect D cwd data) (call.Announces D) call.lag (d.contents (auditPath data))
      ((call.execFaulty C A D cwd data faults d).2, call.trail C A D cwd data faults d) := by
  intro htook
  obtain ⟨step, -, heffect, -⟩ := id htook
  obtain ⟨hcut, hend⟩ := Prog.Safe.of_run (call.runs (C := C) (A := A) hX hD d ⟨_, heffect⟩) faults
  have hdisk : (Prog.runFaulty FileOp.faulty.logged (call.command.run C A D cwd data call.fresh) faults
      (d, [])).2 = ((call.execFaulty C A D cwd data faults d).2, call.trail C A D cwd data faults d) :=
    Prod.ext (Prog.runFaulty_logged FileOp.faulty _ faults (d, [])).2 rfl
  rw [hdisk] at hcut hend
  cases hrun : (Prog.runFaulty FileOp.faulty.logged (call.command.run C A D cwd data call.fresh) faults
      (d, [])).1 with
  | none => exact hcut hrun htook
  | some o =>
    cases o with
    | ok u => exact Recorded.settled ((hend _ hrun).1 u rfl) htook
    | error e => exact (hend _ hrun).2 e rfl htook

/-- **Effects are audited exactly if the command is left undisturbed**: if a command has changed something,
its event is in the log if and only if the accesses from the change up to the text of the event have
succeeded. -/
theorem audited_iff (hX : D.HexReadsBack) (hD : D.PrintsCompact) (call : Call F)
    (faults : List (Option Fault)) (d : Disk) :
    call.Audited C A D cwd data faults d ↔ call.Undisturbed C A D cwd data faults d := by
  apply forall_congr'
  rintro ⟨p, b, hmem, heffect, -⟩
  exact call.settled hX hD faults d ⟨_, hmem, heffect, rfl⟩

/-- Bob is revoked. -/
def exampleRevokeBob : Call Scalar := ⟨.revokeUser "bob", exampleFresh⟩

/-- The file of the revocation list is new. -/
theorem changed_exampleRevokeBob {faults : List (Option Fault)} {trail : Trail} {b : Bytes}
    (htrail : exampleRevokeBob.trail exponents boxes serdeJsonUnlimited exampleCwd exampleData faults
      emptyDisk = (.exist (revocationPath exampleData), none) ::
        (.write (revocationPath exampleData) b, none) :: trail) :
    exampleRevokeBob.Changed exponents boxes serdeJsonUnlimited exampleCwd exampleData faults emptyDisk := by
  refine ⟨revocationPath exampleData, b, ?_, rfl, fun h => by cases h⟩
  rw [htrail]
  exact List.mem_cons_of_mem _ List.mem_cons_self

/-- The command is cut off before the end of the line of its event, which is in the log. -/
theorem audited_exampleRevokeBob :
    exampleRevokeBob.Changed exponents boxes serdeJsonUnlimited exampleCwd exampleData
      (List.replicate 4 none) emptyDisk ∧
    exampleRevokeBob.Audited exponents boxes serdeJsonUnlimited exampleCwd exampleData
      (List.replicate 4 none) emptyDisk := by
  refine ⟨changed_exampleRevokeBob rfl, ?_⟩
  refine (audited_iff hexReadsBack_serdeJsonUnlimited (fun _ => rfl) _ _ _).2 fun _ => ?_
  refine ⟨_, ⟨[(.exist (revocationPath exampleData), none)], _, rfl, ⟨rfl, rfl⟩, ?_⟩, le_rfl, ?_⟩
  · rintro step (_ | ⟨_, _ | ⟨_, ⟨⟩⟩⟩) ⟨heffect, -⟩ <;> exact heffect
  · rintro step (_ | ⟨_, _ | ⟨_, ⟨⟩⟩⟩) <;> rfl

/-- With a log that cannot be opened, the user is revoked and no event says so. -/
theorem not_audited_exampleRevokeBob :
    ¬ exampleRevokeBob.Audited exponents boxes serdeJsonUnlimited exampleCwd exampleData
      [none, none, some ⟨.other "Permission denied (os error 13)", 0⟩] emptyDisk := by
  intro h
  have hlog : Extended (auditPath exampleData) [] [] ((exampleRevokeBob.execFaulty exponents boxes
      serdeJsonUnlimited exampleCwd exampleData [none, none,
        some ⟨.other "Permission denied (os error 13)", 0⟩] emptyDisk).2, exampleRevokeBob.trail exponents
      boxes serdeJsonUnlimited exampleCwd exampleData [none, none,
        some ⟨.other "Permission denied (os error 13)", 0⟩] emptyDisk) := rfl
  exact not_announced hlog (not_prefix_nil fun _ => rfl) (h (changed_exampleRevokeBob rfl))

end SecureABE.Cli
