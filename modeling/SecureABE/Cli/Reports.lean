import SecureABE.Audit.Reading
import SecureABE.Cli.Runs
import SecureABE.Storage.Listing

/-!
# The reports of the program

`cmd_list` and `cmd_audit`, with the lines they print. What `cmd_audit` prints after a run is what it
printed before, and then one line for each command of the run that records an event (`Call.event`), in
the order of the commands (`cmdAudit_after_run`): a successful command other than the registration of
an authority, or a decryption that is denied.
-/

namespace SecureABE.Cli

open Rust SecureABE.Core SecureABE.Policy SecureABE.Revocation SecureABE.Authorities SecureABE.Audit
  SecureABE.Envelope SecureABE.Storage

/-! ## The commands -/

section Commands

variable (D : Codec) (data : Path)

/-- A line of `cmd_list`. -/
def packageLine (p : PackageSummary) : String :=
  p.id ++ "  file=" ++ p.originalFilename ++ "  policy=\"" ++ p.policySummary ++ "\""

def cmdList : FileCmd String (List String) := do
  let store ← Cmd.mapErr StorageError.toText (PackageStore.open (packagesDir data))
  let packages ← Cmd.mapErr StorageError.toText (store.list D)
  pure ((if packages.isEmpty then ["No packages stored yet."] else []) ++ packages.map packageLine)

/-- A line of `cmd_audit`. -/
def eventLine (e : AuditEvent) : String :=
  "[" ++ toString e.timestampUnix.toNat ++ "] actor=" ++ e.actor ++ " action=" ++ e.action ++
    " subject=" ++ e.subject ++ " detail=" ++ e.detail

def cmdAudit : FileCmd String (List String) := do
  let audit := AuditLog.open (auditPath data)
  let events ← Cmd.mapErr AuditError.toText (audit.readAll D)
  pure (events.map eventLine)

end Commands

variable {F G₁ G₂ Gₜ : Type} [Field F] [DecidableEq F] [AddCommGroup G₁] [Module F G₁]
  [AddCommGroup G₂] [Module F G₂] [AddCommGroup Gₜ] [Module F Gₜ]
variable (C : Curve F G₁ G₂ Gₜ) (A : Cipher) (D : Codec) (cwd data : Path)

/-! ## The events of a run -/

/-- The event of a decryption: none if the key or the package cannot be loaded. -/
def decryptEvent (id user out : String) (fresh : Fresh F) (d : Disk) : Option AuditEvent :=
  match (do
    let key ← keyOutcome C D data user d
    let package ← storedOn C D data id (d.createDirAll (packagesDir data))
    .ok (Envelope.open C A D key.1 key.2 package) : Outcome String (Outcome EnvelopeError Bytes)) with
  | .ok (.ok _) => some (fresh.event user "DECRYPT_SUCCESS" id ("wrote " ++ out))
  | .ok (.error (.error e)) => some (fresh.event user "DECRYPT_DENIED" id e.toText)
  | _ => none

/-- The event that a command records, if it records one. -/
def Call.event (call : Call F) (d : Disk) : Option AuditEvent :=
  match call.command with
  | .setup => some (setupEvent call.fresh)
  | .registerAuthority .. => none
  | .issue args => (issueOutcome C D data args call.fresh d).toOption.map fun key =>
      issueEvent args call.fresh key.flatAttrs
  | .encrypt file policy => (call.exec C A D cwd data d).1.toOption.map fun _ =>
      encryptEvent D file policy call.fresh
  | .decrypt id user out => decryptEvent C A D data id user out call.fresh d
  | .revokeAttribute attr => (revocationOn D data d).toOption.map fun rl =>
      revokeAttributeEvent attr (rl.currentEpoch attr + 1) call.fresh
  | .revokeUser user => (revocationOn D data d).toOption.map fun _ =>
      revokeUserEvent user call.fresh

/-- The events of a run, in order. -/
def events : List (Call F) → Disk → List AuditEvent
  | [], _ => []
  | call :: calls, d =>
    (call.event C A D cwd data d).toList ++ events calls (call.exec C A D cwd data d).2

/-- The package is there and the key does not open it. -/
def Call.Denied (call : Call F) (d : Disk) : Prop :=
  ∃ id user out key package e, call.command = .decrypt id user out ∧
    keyOutcome C D data user d = .ok key ∧
    storedOn C D data id (d.createDirAll (packagesDir data)) = .ok package ∧
    Envelope.open C A D key.1 key.2 package = Outcome.err e

/-- The log is a file or not there yet, and its last line has ended. -/
structure LogClosed (d : Disk) : Prop where
  notMem_dirs : auditPath data ∉ d.dirs
  ended : d.contents (auditPath data) = [] ∨ (d.contents (auditPath data)).getLast? = some 10

/-- The output of a command is not the log. -/
def Call.LeavesLog (call : Call F) : Prop :=
  ∀ id user out, call.command = .decrypt id user out → cwd.join out ≠ auditPath data

variable {C A D cwd data}

/-- **The commands that record an event** are the successful ones, but for the registration of an
authority, and the decryptions that are denied. -/
theorem isSome_event_iff {call : Call F} {d : Disk} : (call.event C A D cwd data d).isSome ↔
    ((call.exec C A D cwd data d).1 = .ok () ∧ ∀ name controls,
      call.command ≠ .registerAuthority name controls) ∨ call.Denied C A D data d := by
  have hdenied : (∀ id user out, call.command ≠ .decrypt id user out) →
      ¬ call.Denied C A D data d := by
    rintro hne ⟨id, user, out, key, package, e, hcommand, -⟩
    exact hne id user out hcommand
  obtain ⟨command, fresh⟩ := call
  cases command with
  | setup =>
    have hrun : ((Call.mk .setup fresh).exec C A D cwd data d).1 = .ok () :=
      congrArg Prod.fst (exec_cmdSetup C D data fresh d)
    exact iff_of_true rfl (Or.inl ⟨hrun, by simp⟩)
  | registerAuthority name controls =>
    rw [or_iff_left (hdenied (by simp))]
    exact iff_of_false (by simp [Call.event]) fun h => h.2 name controls rfl
  | issue args =>
    have hrun : ((Call.mk (.issue args) fresh).exec C A D cwd data d).1 = _ :=
      congrArg Prod.fst (exec_cmdIssue C D data args fresh d)
    rw [or_iff_left (hdenied (by simp)), hrun]
    cases h : issueOutcome C D data args fresh d <;> simp [Call.event, h, Except.toOption]
  | encrypt file policy =>
    rw [or_iff_left (hdenied (by simp))]
    cases h : ((Call.mk (.encrypt file policy) fresh).exec C A D cwd data d).1 <;>
      simp [Call.event, h, Except.toOption]
  | decrypt id user out =>
    have hrun : ((Call.mk (.decrypt id user out) fresh).exec C A D cwd data d).1 = _ :=
      congrArg Prod.fst (exec_cmdDecrypt C A D cwd data id user out fresh d)
    rw [hrun]
    change (decryptEvent C A D data id user out fresh d).isSome ↔ _
    unfold decryptEvent Call.Denied
    cases hkey : keyOutcome C D data user d with
    | error e =>
      apply iff_of_false (by simp)
      rintro (⟨h, -⟩ | ⟨id', user', out', key, package, e', hcommand, hkey', -⟩)
      · cases h
      · cases hcommand
        cases hkey.symm.trans hkey'
    | ok key =>
      rw [Cmd.andThen_ok, ok_bind]
      cases hpackage : storedOn C D data id (d.createDirAll (packagesDir data)) with
      | error e =>
        apply iff_of_false (by simp)
        rintro (⟨h, -⟩ | ⟨id', user', out', key', package, e', hcommand, -, hpackage', -⟩)
        · cases h
        · cases hcommand
          cases hpackage.symm.trans hpackage'
      | ok package =>
        rw [Cmd.andThen_ok, ok_bind]
        rcases hopen : Envelope.open C A D key.1 key.2 package with (e | msg) | plaintext
        · exact iff_of_true rfl (Or.inr ⟨id, user, out, key, package, e, rfl, hkey, hpackage, hopen⟩)
        · apply iff_of_false (by simp)
          rintro (⟨h, -⟩ | ⟨id', user', out', key', package', e', hcommand, hkey', hpackage', hopen'⟩)
          · cases h
          · cases hcommand
            obtain rfl := Except.ok.inj (hkey.symm.trans hkey')
            obtain rfl := Except.ok.inj (hpackage.symm.trans hpackage')
            cases hopen.symm.trans hopen'
        · exact iff_of_true rfl (Or.inl ⟨rfl, by simp⟩)
  | revokeAttribute attr =>
    have hrun : ((Call.mk (.revokeAttribute attr) fresh).exec C A D cwd data d).1 = _ :=
      congrArg Prod.fst (exec_cmdRevokeAttribute D data attr fresh d)
    rw [or_iff_left (hdenied (by simp)), hrun]
    cases h : revocationOn D data d <;> simp [Call.event, h, Except.toOption]
  | revokeUser user =>
    have hrun : ((Call.mk (.revokeUser user) fresh).exec C A D cwd data d).1 = _ :=
      congrArg Prod.fst (exec_cmdRevokeUser D data user fresh d)
    rw [or_iff_left (hdenied (by simp)), hrun]
    cases h : revocationOn D data d <;> simp [Call.event, h, Except.toOption]

/-! ## The log after a command -/

variable (D data) in
/-- From one disk to another the log gets the lines of some events and stays a file. -/
structure Logs (es : List AuditEvent) (d d' : Disk) : Prop where
  contents : d'.contents (auditPath data) =
    d.contents (auditPath data) ++ es.flatMap (AuditLog.line D)
  notMem_dirs : auditPath data ∉ d.dirs → auditPath data ∉ d'.dirs

theorem Logs.refl (d : Disk) : Logs D data [] d d := ⟨(List.append_nil _).symm, id⟩

theorem Logs.trans {es es' : List AuditEvent} {d d' d'' : Disk} (h : Logs D data es d d')
    (h' : Logs D data es' d' d'') : Logs D data (es ++ es') d d'' where
  contents := by rw [h'.contents, h.contents, List.flatMap_append, List.append_assoc]
  notMem_dirs := fun hd => h'.notMem_dirs (h.notMem_dirs hd)

theorem logs_write {p : Path} (hp : auditPath data ≠ p) (d : Disk) (b : Bytes) :
    Logs D data [] d (d.write p b) where
  contents := by
    unfold Disk.contents
    rw [Disk.lookup_write_ne hp, List.flatMap_nil, List.append_nil]
  notMem_dirs := id

/-- A directory that is created does not take the place of the log. -/
theorem logs_createDirAll (d : Disk) (cs : List String) (hcs : ¬ ["audit.log"] <+: cs) :
    Logs D data [] d (d.createDirAll (data.under cs)) where
  contents := (List.append_nil _).symm
  notMem_dirs := by
    intro h hmem
    rcases List.mem_append.1 hmem with hmem | hmem
    · exact h hmem
    · rw [auditPath_eq] at hmem
      exact hcs (Path.under_mem_ancestors.1 (List.mem_filter.1 hmem).1)

theorem logs_append (d : Disk) (event : AuditEvent) :
    Logs D data [event] d (d.append (auditPath data) (AuditLog.line D event)) where
  contents := by rw [Disk.contents_append_self, List.flatMap_singleton]
  notMem_dirs := id

/-- The place of another file. -/
theorem auditPath_ne {p : Path} {f : File} (hp : p = f.path data) (hf : f ≠ .audit) :
    auditPath data ≠ p := by
  rw [hp, auditPath_eq]
  exact fun h => hf (File.path_injective h).symm

theorem logs_createDirAll_packagesDir (d : Disk) :
    Logs D data [] d (d.createDirAll (packagesDir data)) := by
  rw [packagesDir_eq]
  exact logs_createDirAll d _ (by decide)

omit [DecidableEq F] in
theorem logs_afterPut (hX : D.HexReadsBack) (name : String) (package : EncryptedPackage G₁)
    (stamp : Stamp) (d : Disk) :
    Logs D data [] d ((packageStore data).afterPut C D name package stamp d) := by
  have hid := isName_newId hX stamp
  have hdir : Logs D data [] d (d.createDirAll ((packageStore data).packageDir (newId D stamp))) := by
    rw [packageDir_eq hid]
    exact logs_createDirAll d _ (by simp)
  apply (hdir.trans (logs_write (auditPath_ne (sealedPath_eq hid) (by simp)) _ _)).trans
  apply (logs_write (auditPath_ne (wrappedKeyPath_eq hid) (by simp)) _ _).trans
  exact logs_write (auditPath_ne (manifestPath_eq hid) (by simp)) _ _

/-! ## The log after a command -/

omit [DecidableEq F] in
theorem logs_cmdSetup (fresh : Fresh F) (d : Disk) :
    Logs D data [setupEvent fresh] d (Fs.exec (cmdSetup C D data fresh) d).2 := by
  have hroot : Logs D data [] d (d.createDirAll data) := by
    have h : Logs D data [] d (d.createDirAll (data.under [])) := logs_createDirAll d [] (by simp)
    rwa [Path.under_nil] at h
  rw [exec_cmdSetup]
  apply (hroot.trans (logs_write (auditPath_ne (setupPath_eq data) (by simp)) _ _)).trans
  apply (logs_write (auditPath_ne (authoritiesPath_eq data) (by simp)) _ _).trans
  exact (logs_createDirAll_packagesDir _).trans (logs_append _ _)

omit [DecidableEq F] in
theorem logs_afterIssue (args : IssueArgs) (fresh : Fresh F) (key : Issued F G₁ G₂ Gₜ) (d : Disk) :
    Logs D data [issueEvent args fresh key.flatAttrs] d (afterIssue C D data args fresh key d) := by
  have hkeys : ∀ d : Disk, Logs D data [] d (d.createDirAll (keysDir data)) := by
    intro d
    rw [keysDir_eq]
    exact logs_createDirAll d _ (by decide)
  apply (logs_write (auditPath_ne (setupPath_eq data) (by simp)) _ _).trans
  apply (hkeys _).trans
  exact (logs_write (keyFile_ne_auditPath args.user).symm _ _).trans (logs_append _ _)

/-- **One command** appends the line of its event, if it records one. -/
theorem logs_exec (hX : D.HexReadsBack) {call : Call F} (hcall : call.LeavesLog cwd data) (d : Disk) :
    Logs D data (call.event C A D cwd data d).toList d (call.exec C A D cwd data d).2 := by
  obtain ⟨command, fresh⟩ := call
  have hsave := fun (d : Disk) (b : Bytes) => logs_write (D := D) (auditPath_ne (setupPath_eq data) (by simp)) d b
  cases command with
  | setup => exact logs_cmdSetup fresh d
  | registerAuthority name controls =>
    change Logs D data [] d (Fs.exec (cmdRegisterAuthority D data name controls) d).2
    rw [exec_cmdRegisterAuthority]
    cases registryOn D data d with
    | error e => exact Logs.refl d
    | ok reg => exact logs_write (auditPath_ne (authoritiesPath_eq data) (by simp)) _ _
  | issue args =>
    change Logs D data ((issueOutcome C D data args fresh d).toOption.map _).toList d
      (Fs.exec (cmdIssue C D data args fresh) d).2
    rw [exec_cmdIssue]
    cases issueOutcome C D data args fresh d with
    | error e => exact Logs.refl d
    | ok key => exact logs_afterIssue args fresh key d
  | encrypt file policy =>
    change Logs D data ((Fs.exec (cmdEncrypt C A D cwd data file policy fresh) d).1.toOption.map _).toList d
      (Fs.exec (cmdEncrypt C A D cwd data file policy fresh) d).2
    rw [exec_cmdEncrypt]
    cases encryptOutcome C D data policy fresh d with
    | error e => exact Logs.refl d
    | ok prepared =>
      rw [Cmd.andThen_ok]
      cases sealOutcome C A D cwd file policy fresh prepared
          (d.write (setupPath data) (setupBytes C D prepared.pp prepared.msk)) with
      | error e => exact hsave _ _
      | ok package =>
        apply (hsave _ _).trans
        apply (logs_createDirAll_packagesDir _).trans
        exact (logs_afterPut hX _ package fresh.stamp _).trans (logs_append _ _)
  | decrypt id user out =>
    change Logs D data (decryptEvent C A D data id user out fresh d).toList d
      (Fs.exec (cmdDecrypt C A D cwd data id user out fresh) d).2
    rw [exec_cmdDecrypt, decryptEvent]
    cases keyOutcome C D data user d with
    | error e => exact Logs.refl d
    | ok key =>
      rw [Cmd.andThen_ok, ok_bind]
      cases storedOn C D data id (d.createDirAll (packagesDir data)) with
      | error e => exact logs_createDirAll_packagesDir d
      | ok package =>
        rw [Cmd.andThen_ok, ok_bind]
        apply (logs_createDirAll_packagesDir d).trans
        rcases Envelope.open C A D key.1 key.2 package with (e | msg) | plaintext
        · exact logs_append _ _
        · exact Logs.refl _
        · exact (logs_write (hcall id user out rfl).symm _ _).trans (logs_append _ _)
  | revokeAttribute attr =>
    change Logs D data ((revocationOn D data d).toOption.map _).toList d
      (Fs.exec (cmdRevokeAttribute D data attr fresh) d).2
    rw [exec_cmdRevokeAttribute]
    cases hrl : revocationOn D data d with
    | error e => exact Logs.refl d
    | ok rl =>
      have hpath := auditPath_ne ((path_of_revocationOn hrl).trans (revocationPath_eq data)) (by simp)
      exact (logs_write hpath _ _).trans (logs_append _ _)
  | revokeUser user =>
    change Logs D data ((revocationOn D data d).toOption.map _).toList d
      (Fs.exec (cmdRevokeUser D data user fresh) d).2
    rw [exec_cmdRevokeUser]
    cases hrl : revocationOn D data d with
    | error e => exact Logs.refl d
    | ok rl =>
      have hpath := auditPath_ne (((rl.path_withUser user).trans
        (path_of_revocationOn hrl)).trans (revocationPath_eq data)) (by simp)
      exact (logs_write hpath _ _).trans (logs_append _ _)

/-- **A run** appends the lines of its events. -/
theorem logs_runAll (hX : D.HexReadsBack) {calls : List (Call F)}
    (hcalls : ∀ call ∈ calls, call.LeavesLog cwd data) (d : Disk) :
    Logs D data (events C A D cwd data calls d) d (runAll C A D cwd data calls d) := by
  induction calls generalizing d with
  | nil => exact Logs.refl d
  | cons call calls ih =>
    rw [runAll_cons, events]
    exact (logs_exec hX (hcalls call List.mem_cons_self) d).trans
      (ih (fun c hc => hcalls c (List.mem_cons_of_mem _ hc)) _)

/-! ## Reading the log -/

/-- The lines of a text are read one after another. -/
theorem readLines_append (lines lines' : List Bytes) (read : List AuditEvent) :
    readLines D (lines ++ lines') read = readLines D lines read >>= readLines D lines' := by
  induction lines generalizing read with
  | nil => rfl
  | cons line lines ih =>
    rw [List.cons_append, readLines, readLines]
    cases Outcome.okOr (AuditError.io .invalidData) (fromUtf8 line) with
    | error e => rfl
    | ok text =>
      rw [ok_bind, ok_bind]
      split_ifs
      · exact ih read
      · cases decodeEvent D text with
        | error e => rfl
        | ok event => exact ih (read ++ [event])

/-- The lines of some events are their texts. -/
theorem byteLines_flatMap_line (hP : D.PrintsCompact) (es : List AuditEvent) :
    byteLines (es.flatMap (AuditLog.line D)) =
      (es.map fun event => [event]).map fun line => utf8 (textOf D line) := by
  induction es with
  | nil => rfl
  | cons event es ih =>
    have hreturn := dropReturn_of_ne (getLast_utf8_textOf hP [event])
    rw [textOf_singleton] at hreturn
    rw [List.flatMap_cons, AuditLog.line, utf8_newline, List.append_assoc, byteLines,
      linesFrom_append (hP.newline_notMem _), List.nil_append, List.singleton_append,
      linesFrom_newline, hreturn, List.map_cons, List.map_cons, textOf_singleton, ← ih]
    rfl

/-- What is read of the log after the lines of some events have come to it. -/
theorem Logs.readAll (hP : D.PrintsCompact) (hR : D.ReadsCompact) {es read : List AuditEvent} {d d' : Disk}
    (h : Logs D data es d d') (hd : LogClosed data d)
    (hread : (Fs.exec ((AuditLog.open (auditPath data)).readAll D) d).1 = .ok read) :
    (Fs.exec ((AuditLog.open (auditPath data)).readAll D) d').1 = .ok (read ++ es) := by
  have hcontents : ∀ d : Disk, auditPath data ∉ d.dirs →
      (Fs.exec ((AuditLog.open (auditPath data)).readAll D) d).1 =
        readLines D (byteLines (d.contents (auditPath data))) [] :=
    fun d hd => AuditLog.exec_readAll D _ hd
  have hnew : ∀ line ∈ es.map fun event => [event], line.length ≤ 1 := by simp
  have hflat : (es.map fun event => [event]).flatten = es := by
    rw [← List.flatMap_def]
    exact List.flatMap_singleton' es
  rw [hcontents d hd.notMem_dirs] at hread
  rw [hcontents d' (h.notMem_dirs hd.notMem_dirs), h.contents, byteLines_append hd.ended,
    readLines_append, hread, ok_bind, byteLines_flatMap_line hP, readLines_lines hP hR hnew, hflat]

theorem exec_cmdAudit (d : Disk) :
    (Fs.exec (cmdAudit D data) d).1 = (do
      let events ← Outcome.mapErr AuditError.toText
        (Fs.exec ((AuditLog.open (auditPath data)).readAll D) d).1
      .ok (events.map eventLine)) := by
  rw [cmdAudit, Fs.exec_bind, Fs.exec_mapErr]
  cases Outcome.mapErr AuditError.toText
    (Fs.exec ((AuditLog.open (auditPath data)).readAll D) d).1 <;> rfl

/-- **The audit trail is the history**: after a run the printed lines are the ones from before it,
followed by those of the events of the run. A command has one exactly if it succeeded and is not the
registration of an authority, or is a decryption that was denied. -/
theorem cmdAudit_after_run (hX : D.HexReadsBack) (hP : D.PrintsCompact) (hR : D.ReadsCompact) {d : Disk}
    (hd : LogClosed data d) {lines : List String} (hbefore : (Fs.exec (cmdAudit D data) d).1 = .ok lines)
    {calls : List (Call F)} (hcalls : ∀ call ∈ calls, call.LeavesLog cwd data) :
    (Fs.exec (cmdAudit D data) (runAll C A D cwd data calls d)).1 =
      .ok (lines ++ (events C A D cwd data calls d).map eventLine) ∧
    ∀ call ∈ calls, ∀ d : Disk, (call.event C A D cwd data d).isSome ↔
      ((call.exec C A D cwd data d).1 = .ok () ∧ ∀ name controls,
        call.command ≠ .registerAuthority name controls) ∨ call.Denied C A D data d := by
  refine ⟨?_, fun call _ d => isSome_event_iff⟩
  have hlogs := logs_runAll (C := C) (A := A) hX hcalls d
  rw [exec_cmdAudit] at hbefore
  obtain ⟨read, hread, hlines⟩ := bind_eq_ok.1 hbefore
  rw [Outcome.mapErr_eq_ok] at hread
  obtain rfl := Except.ok.inj hlines
  rw [exec_cmdAudit, hlogs.readAll hP hR hd hread, Outcome.mapErr_ok, ok_bind, List.map_append]

/-- Bob is revoked, and then asks for a package. -/
def exampleAsked : List (Call Scalar) :=
  [⟨.revokeUser "bob", exampleFresh⟩, ⟨.decrypt "p" "bob" "out", exampleFresh⟩]

/-- The first command is in the log; the second has failed before the package was looked at. -/
theorem cmdAudit_after_exampleAsked :
    (Fs.exec (cmdAudit serdeJson exampleData)
      (runAll exponents boxes serdeJson exampleCwd exampleData exampleAsked emptyDisk)).1 =
      .ok ["[0] actor=system action=REVOKE_USER subject=bob detail=blocked from future key issuance"] := by
  have hstart : (Fs.exec (cmdAudit serdeJson exampleData) emptyDisk).1 = .ok [] := rfl
  have hclosed : LogClosed exampleData emptyDisk := ⟨by decide, Or.inl rfl⟩
  refine (cmdAudit_after_run (hexReadsBack_codecWith _) printsCompact_serdeJson readsCompact_serdeJson
    hclosed hstart fun call hcall => ?_).1.trans rfl
  intro id user out hout
  simp only [exampleAsked, List.mem_cons, List.not_mem_nil, or_false] at hcall
  rcases hcall with rfl | rfl
  · cases hout
  · cases hout
    decide

end SecureABE.Cli
