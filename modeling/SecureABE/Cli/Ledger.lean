import SecureABE.Cli.Linked
import SecureABE.Cli.Reports

/-!
# The log and the keys on file

The last event that the log has of a key for a user tells what the key file of this user holds: its
names are those of the event, and without an event there is no file (`shows_after_run`).
-/

namespace SecureABE.Cli

open Rust SecureABE.Core SecureABE.Policy SecureABE.Revocation SecureABE.Authorities SecureABE.Audit
  SecureABE.Envelope SecureABE.Storage

variable {F G₁ G₂ Gₜ : Type} [Field F] [DecidableEq F] [AddCommGroup G₁] [Module F G₁]
  [AddCommGroup G₂] [Module F G₂] [AddCommGroup Gₜ] [Module F Gₜ]
variable (C : Curve F G₁ G₂ Gₜ) (A : Cipher) (D : Codec) (cwd data : Path)

/-- The event announces a key for the user. -/
def Announcing (user : String) (e : AuditEvent) : Prop := e.action = "ISSUE_KEY" ∧ e.subject = user

instance (user : String) : DecidablePred (Announcing user) :=
  fun e => inferInstanceAs (Decidable (e.action = "ISSUE_KEY" ∧ e.subject = user))

/-- The last event that announces a key for the user. -/
def lastIssue (es : List AuditEvent) (user : String) : Option AuditEvent :=
  (es.filter fun e => Announcing user e).getLast?

/-- The key file of the user is as the event says: there is none without an event, and otherwise the
key has the names that the event lists. -/
def Shows (d : Disk) (user : String) : Option AuditEvent → Prop
  | none => view data d (.key user) = none
  | some e => ∃ names usk, e.detail = "attributes=" ++ ",".intercalate names ∧
      view data d (.key user) = some (userKeyBytes C D usk) ∧ ∀ a, a ∈ usk.attributes ↔ a ∈ names

variable {C A D cwd data}

omit [DecidableEq F] in
theorem Shows.of_view {d d' : Disk} {user : String} {e : Option AuditEvent} (h : Shows C D data d user e)
    (hview : view data d' (.key user) = view data d (.key user)) : Shows C D data d' user e := by
  cases e with
  | none => exact hview.trans h
  | some e =>
    obtain ⟨names, usk, hdetail, hkey, hnames⟩ := h
    exact ⟨names, usk, hdetail, hview.trans hkey, hnames⟩

theorem lastIssue_append_of_not {es : List AuditEvent} {user : String} {es' : List AuditEvent}
    (h : ∀ e ∈ es', ¬ Announcing user e) : lastIssue (es ++ es') user = lastIssue es user := by
  have hnil : es'.filter (fun e => Announcing user e) = [] := by simpa using h
  unfold lastIssue
  rw [List.filter_append, hnil, List.append_nil]

theorem lastIssue_concat {es : List AuditEvent} {user : String} {e : AuditEvent}
    (h : Announcing user e) : lastIssue (es ++ [e]) user = some e := by
  unfold lastIssue
  rw [List.filter_append, List.filter_cons_of_pos (by simpa using h), List.filter_nil,
    List.getLast?_concat]

/-- Only issuing announces a key. -/
theorem not_announcing_event {call : Call F} {user : String}
    (hcall : ∀ args, call.command = .issue args → args.user ≠ user) {d : Disk} :
    ∀ e ∈ (call.event C A D cwd data d).toList, ¬ Announcing user e := by
  intro e he
  rw [Option.mem_toList] at he
  rintro ⟨haction, hsubject⟩
  obtain ⟨command, fresh⟩ := call
  cases command with
  | setup =>
    obtain rfl := Option.some.inj he
    simp [setupEvent, Fresh.event] at haction
  | registerAuthority name controls => cases he
  | issue args =>
    obtain ⟨key, -, rfl⟩ := Option.map_eq_some_iff.1 he
    exact hcall args rfl hsubject
  | encrypt file policy =>
    obtain ⟨-, -, rfl⟩ := Option.map_eq_some_iff.1 he
    simp [encryptEvent, Fresh.event] at haction
  | decrypt id user' out =>
    change decryptEvent C A D data id user' out fresh d = some e at he
    unfold decryptEvent at he
    split at he
    · obtain rfl := Option.some.inj he
      simp [Fresh.event] at haction
    · obtain rfl := Option.some.inj he
      simp [Fresh.event] at haction
    · cases he
  | revokeAttribute attr =>
    obtain ⟨rl, -, rfl⟩ := Option.map_eq_some_iff.1 he
    simp [revokeAttributeEvent, Fresh.event] at haction
  | revokeUser user' =>
    obtain ⟨rl, -, rfl⟩ := Option.map_eq_some_iff.1 he
    simp [revokeUserEvent, Fresh.event] at haction

/-- **One command** keeps the log and the key files in step. -/
theorem Shows.exec (hX : D.HexReadsBack) {es : List AuditEvent} {d : Disk} {user : String}
    (h : Shows C D data d user (lastIssue es user)) {call : Call F}
    (hcall : ∀ f, call.Avoids cwd data f) :
    Shows C D data (call.exec C A D cwd data d).2 user
      (lastIssue (es ++ (call.event C A D cwd data d).toList) user) := by
  by_cases hissue : ∃ args, call.command = .issue args ∧ args.user = user
  · obtain ⟨args, hcommand, rfl⟩ := hissue
    obtain ⟨command, fresh⟩ := call
    obtain rfl : command = .issue args := hcommand
    rw [exec_issue, exec_cmdIssue]
    unfold Call.event
    dsimp only
    cases hkey : issueOutcome C D data args fresh d with
    | error e =>
      rw [Cmd.andThen_error]
      simpa [Except.toOption] using h
    | ok key =>
      obtain ⟨input, -, -, -, hflat, -, -, r, hminted⟩ := issueOutcome_eq_ok hkey
      have hnew : Announcing args.user (issueEvent args fresh key.flatAttrs) := ⟨rfl, rfl⟩
      have hlast : lastIssue (es ++ [issueEvent args fresh key.flatAttrs]) args.user =
          some (issueEvent args fresh key.flatAttrs) := lastIssue_concat hnew
      rw [Cmd.andThen_ok]
      change Shows C D data _ _ (lastIssue (es ++ [issueEvent args fresh key.flatAttrs]) args.user)
      rw [hlast]
      have hafter : ∃ log, view data (afterIssue C D data args fresh key d) = _ :=
        view_afterIssue (hcall .setup) fresh key
      obtain ⟨log, hview⟩ := hafter
      refine ⟨key.flatAttrs, key.usk, rfl, ?_, ?_⟩
      · rw [hview, Function.update_of_ne (by simp), Function.update_self]
      · rw [hflat]
        exact hminted.mem
  · push Not at hissue
    rw [lastIssue_append_of_not (not_announcing_event hissue)]
    apply h.of_view
    apply view_exec hX (hcall _)
    rw [key_mem_files]
    rintro ⟨args, hcommand, huser⟩
    exact hissue args hcommand huser

/-- **A run** does. -/
theorem Shows.runAll (hX : D.HexReadsBack) {calls : List (Call F)}
    (hcalls : ∀ call ∈ calls, ∀ f, call.Avoids cwd data f) {es : List AuditEvent} {d : Disk}
    {user : String} (h : Shows C D data d user (lastIssue es user)) :
    Shows C D data (runAll C A D cwd data calls d) user
      (lastIssue (es ++ events C A D cwd data calls d) user) := by
  induction calls generalizing d es with
  | nil =>
    rw [runAll_nil, events, List.append_nil]
    exact h
  | cons call calls ih =>
    rw [runAll_cons, events, ← List.append_assoc]
    exact ih (fun c hc => hcalls c (List.mem_cons_of_mem _ hc))
      (h.exec hX (hcalls call List.mem_cons_self))

/-- **What the log says of the keys**: on a directory without log and keys, the last event that it has of
a key for a user after any run lists the names of the key on file, and without one there is no file. -/
theorem shows_after_run (hC : C.ReadsBack) (hX : D.HexReadsBack) (hD : D.ReadsShallow)
    (hP : D.PrintsCompact) (hR : D.ReadsCompact) {d : Disk} (hlog : d.has (auditPath data) = false)
    (hkeys : ∀ user, view data d (.key user) = none) {calls : List (Call F)}
    (hcalls : ∀ call ∈ calls, ∀ f, call.Avoids cwd data f) :
    ∃ es, (Fs.exec ((AuditLog.open (auditPath data)).readAll D)
        (runAll C A D cwd data calls d)).1 = .ok es ∧
      ∀ user, '/' ∉ user.toList →
        match lastIssue es user with
        | none => (runAll C A D cwd data calls d).read (keyFile data user) = .error .notFound
        | some e => ∃ names usk, e.detail = "attributes=" ++ ",".intercalate names ∧
            userKeyOn C D data user (runAll C A D cwd data calls d) = .ok usk ∧
            ∀ a, a ∈ usk.attributes ↔ a ∈ names := by
  obtain ⟨hfile, hdir⟩ := Bool.or_eq_false_iff.1 hlog
  have hlookup : d.files.lookup (auditPath data) = none :=
    AList.lookup_eq_none.2 (by simpa using hfile)
  have hempty : d.contents (auditPath data) = [] := by rw [Disk.contents, hlookup, Option.getD_none]
  have hclosed : LogClosed data d := ⟨by simpa using hdir, Or.inl hempty⟩
  have hread : (Fs.exec ((AuditLog.open (auditPath data)).readAll D) d).1 = .ok [] := by
    apply (AuditLog.exec_readAll D _ hclosed.notMem_dirs).trans
    change readLines D (byteLines (d.contents (auditPath data))) [] = _
    rw [hempty]
    rfl
  have hleaves : ∀ call ∈ calls, call.LeavesLog cwd data := by
    intro call hcall id user out hcommand hout
    have havoids := hcalls call hcall .audit
    unfold Call.Avoids at havoids
    rw [hcommand] at havoids
    exact havoids ((auditPath_eq data).symm.trans hout.symm)
  have hlogs := logs_runAll (C := C) (A := A) hX hleaves d
  refine ⟨events C A D cwd data calls d, ?_, fun user huser => ?_⟩
  · have hall := hlogs.readAll hP hR hclosed hread
    rwa [List.nil_append] at hall
  · have hshows : Shows C D data d user (lastIssue [] user) := hkeys user
    have hrun := hshows.runAll (A := A) hX hcalls
    rw [List.nil_append] at hrun
    cases hlast : lastIssue (events C A D cwd data calls d) user with
    | none =>
      rw [hlast] at hrun
      have hnone : (Cli.runAll C A D cwd data calls d).files.lookup ((File.key user).path data) = none :=
        hrun
      dsimp only
      unfold Disk.read
      rw [keyFile_eq huser, hnone]
    | some e =>
      rw [hlast] at hrun
      obtain ⟨names, usk, hdetail, hkey, hnames⟩ := hrun
      exact ⟨names, usk, hdetail, userKeyOn_of_view huser hC hX hD hkey, hnames⟩

/-- After a run that issues a key to Alice, the log tells which. -/
theorem shows_after_exampleRun : ∃ es e names usk,
    (Fs.exec ((AuditLog.open (auditPath exampleData)).readAll serdeJsonUnlimited)
      (runAll exponents boxes serdeJsonUnlimited exampleCwd exampleData exampleRun emptyDisk)).1 = .ok es ∧
    lastIssue es "alice" = some e ∧ e.detail = "attributes=" ++ ",".intercalate names ∧
    userKeyOn exponents serdeJsonUnlimited exampleData "alice"
      (runAll exponents boxes serdeJsonUnlimited exampleCwd exampleData exampleRun emptyDisk) = .ok usk ∧
    ∀ a, a ∈ usk.attributes ↔ a ∈ names := by
  have halice : '/' ∉ "alice".toList := by decide
  have havoids : ∀ call ∈ exampleRun, ∀ f, call.Avoids exampleCwd exampleData f :=
    List.forall_mem_cons.2 ⟨fun _ => trivial, List.forall_mem_cons.2 ⟨fun _ => trivial,
      List.forall_mem_singleton.2 fun _ => halice⟩⟩
  obtain ⟨es, hread, hshows⟩ := shows_after_run (A := boxes) readsBack_exponents
    hexReadsBack_serdeJsonUnlimited readsBack_serdeJsonUnlimited.shallow printsCompact_serdeJsonUnlimited
    readsCompact_serdeJsonUnlimited (d := emptyDisk) (by decide) (fun _ => rfl) havoids
  obtain ⟨w, usk, -, hkey, -⟩ := exists_key_exampleRun
  have hshown := hshows "alice" halice
  cases hlast : lastIssue es "alice" with
  | none =>
    rw [hlast] at hshown
    unfold userKeyOn at hkey
    rw [hshown] at hkey
    cases hkey
  | some e =>
    rw [hlast] at hshown
    obtain ⟨names, usk', hdetail, hkey', hnames⟩ := hshown
    exact ⟨es, e, names, usk', hread, hlast, hdetail, hkey', hnames⟩

end SecureABE.Cli
