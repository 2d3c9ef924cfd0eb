import SecureABE.Cli.Disturbances
import SecureABE.Cli.Refinement

/-!
# Runs with disturbances

Some commands of a run are left alone, others are cut off somewhere or some of their writes fail. The
monitor accounts for all of it (`accounts_attemptAll`): a command that is left alone has its reply, and one
that is disturbed either has happened, as far as the monitor can tell, or it has not. It has happened if it
returned with success. What is left over on the disk (parameters, parts of packages, lines of the log) has
no influence on any later command.
-/

namespace SecureABE.Cli

open Rust SecureABE.Core SecureABE.Policy SecureABE.Revocation SecureABE.Authorities SecureABE.Audit
  SecureABE.Envelope SecureABE.Storage

variable {F G₁ G₂ Gₜ : Type} [Field F] [DecidableEq F] [AddCommGroup G₁] [Module F G₁]
  [AddCommGroup G₂] [Module F G₂] [AddCommGroup Gₜ] [Module F Gₜ]
variable {C : Curve F G₁ G₂ Gₜ} {A : Cipher} {D : Codec} {cwd data : Path}

/-! ## Attempts -/

/-- How a command goes: undisturbed, or with faults of its writes, cut off when there are no more of them. -/
inductive Course
  | undisturbed
  | disturbed (faults : List (Option Fault))

/-- A command and how it goes. -/
structure Attempt (F : Type) where
  call : Call F
  course : Course

variable (C A D cwd data) in
/-- What a command reports, nothing if it is cut off, and the disk after it. -/
def Attempt.exec (attempt : Attempt F) (d : Disk) : Option (Outcome String Unit) × Disk :=
  match attempt.course with
  | .undisturbed =>
    let (o, d') := attempt.call.exec C A D cwd data d
    (some o, d')
  | .disturbed faults =>
    Prog.runFaulty FileOp.wary (attempt.call.command.run C A D cwd data attempt.call.fresh) faults d

variable (C A D cwd data) in
/-- The reports of a run, and the disk after it. -/
def attemptAll : List (Attempt F) → Disk → List (Option (Outcome String Unit)) × Disk
  | [], d => ([], d)
  | attempt :: attempts, d =>
    let (report, d') := attempt.exec C A D cwd data d
    let (reports, d'') := attemptAll attempts d'
    (report :: reports, d'')

variable (D) in
/-- The ids that a command draws for packages. -/
def Call.drawn (call : Call F) : List String :=
  match call.command with
  | .encrypt _ _ => [newId D call.fresh.stamp]
  | _ => []

omit [Field F] [DecidableEq F] in
theorem mem_drawn {call : Call F} {id : String} : id ∈ call.drawn D ↔ call.Takes D id := by
  obtain ⟨command, fresh⟩ := call
  cases command <;> simp [Call.drawn, Call.Takes, eq_comm]

/-! ## Accounts -/

variable (D cwd) in
/-- The step of the monitor for a command. -/
def Monitor.perform (m : Monitor) (call : Call F) : Outcome String Unit × Monitor :=
  m.step cwd call.command (newId D call.fresh.stamp)

variable (D cwd) in
/-- The reply of the monitor, or another refusal of a package that it does not have. -/
def Monitor.Answers (m : Monitor) (call : Call F) (o : Outcome String Unit) : Prop :=
  o = (m.perform D cwd call).1 ∨
    ∃ id user out, call.command = .decrypt id user out ∧ m.deposits id = none ∧ o ≠ .ok ()

variable (D cwd) in
/-- What the monitor makes of an attempt that reports so. -/
inductive Monitor.Account (attempt : Attempt F) (m : Monitor) : Option (Outcome String Unit) → Monitor → Prop
  /-- An undisturbed command is answered. -/
  | answered {o : Outcome String Unit} (hcourse : attempt.course = .undisturbed)
      (ho : m.Answers D cwd attempt.call o) : Account attempt m (some o) (m.perform D cwd attempt.call).2
  /-- A disturbed command has happened. -/
  | happened {report : Option (Outcome String Unit)} (hcourse : attempt.course ≠ .undisturbed)
      (hok : (m.perform D cwd attempt.call).1 = .ok ()) :
      Account attempt m report (m.perform D cwd attempt.call).2
  /-- A disturbed command has not happened, and does not report success. -/
  | dropped {report : Option (Outcome String Unit)} (hcourse : attempt.course ≠ .undisturbed)
      (hreport : report ≠ some (.ok ())) : Account attempt m report m

variable (D cwd) in
/-- What it makes of the attempts of a run. -/
inductive Monitor.Accounts : List (Attempt F) → List (Option (Outcome String Unit)) → Monitor → Monitor → Prop
  | nil (m : Monitor) : Accounts [] [] m m
  | cons {attempt : Attempt F} {attempts : List (Attempt F)} {report : Option (Outcome String Unit)}
      {reports : List (Option (Outcome String Unit))} {m m' m'' : Monitor}
      (h : Monitor.Account D cwd attempt m report m') (hrest : Accounts attempts reports m' m'') :
      Accounts (attempt :: attempts) (report :: reports) m m''

omit [Field F] [DecidableEq F] in
/-- A command deposits under the id that it draws only. -/
theorem Monitor.deposits_perform {m : Monitor} {call : Call F} (hsetup : call.command ≠ .setup)
    {id : String} (hid : id ∉ call.drawn D) : (m.perform D cwd call).2.deposits id = m.deposits id := by
  unfold perform
  cases hrespond : m.respond cwd call.command (newId D call.fresh.stamp) with
  | error e => rw [step_of_error hrespond]
  | ok m' =>
    rw [step_of_ok hrespond]
    obtain ⟨command, fresh⟩ := call
    cases command with
    | setup => exact absurd rfl hsetup
    | registerAuthority name controls | revokeAttribute attr | revokeUser user =>
      obtain rfl := Except.ok.inj hrespond
      rfl
    | issue args =>
      obtain ⟨-, claims, -, -, rfl⟩ := issue_eq_ok.1 hrespond
      rfl
    | decrypt id' user out =>
      obtain ⟨grants, deposit, -, -, -, rfl⟩ := decrypt_eq_ok.1 hrespond
      rfl
    | encrypt file policy =>
      obtain ⟨tree, -, hrespond⟩ := bind_eq_ok.1 hrespond
      obtain ⟨plaintext, -, hrespond⟩ := bind_eq_ok.1 hrespond
      obtain rfl := Except.ok.inj hrespond
      exact Function.update_of_ne (fun h => hid (List.mem_singleton.2 h)) _ _

omit [Field F] [DecidableEq F] in
/-- A package that the monitor does not have is refused. -/
theorem Monitor.perform_missing {m : Monitor} {id : String} (hnone : m.deposits id = none)
    (user out : String) (fresh : Fresh F) : (m.perform D cwd ⟨.decrypt id user out, fresh⟩).2 = m := by
  cases hrespond : m.respond cwd (.decrypt id user out) (newId D fresh.stamp) with
  | error e => rw [perform, step_of_error hrespond]
  | ok m' =>
    obtain ⟨grants, deposit, -, hdeposit, -⟩ := decrypt_eq_ok.1 hrespond
    rw [hnone] at hdeposit
    cases hdeposit

/-! ## One attempt -/

variable (C A D data) in
/-- The disk is that of the monitor, beside what lost packages have left. Packages and lost packages have
ids that were drawn. -/
def Follows (d : Disk) (msk : MasterSecret F) (drawn : List String) (m : Monitor) : Prop :=
  ∃ (d₀ : Disk) (w : World F G₁ G₂ Gₜ) (past : List Happening) (lost : String → Prop),
    Mirrors C A D data d₀ w past m ∧ w.msk = msk ∧ Resembles data lost d d₀ ∧
      ∀ id, (lost id → m.deposits id = none ∧ id ∈ drawn) ∧ (m.deposits id ≠ none → id ∈ drawn)

section Attempt

variable {d d₀ : Disk} {w : World F G₁ G₂ Gₜ} {past : List Happening} {m : Monitor} {msk : MasterSecret F}
  {drawn : List String}

/-- A package that the monitor does not have is not decrypted, and nothing changes that other commands
see. -/
theorem Mirrors.wary_missing (h : Mirrors C A D data d₀ w past m) {lost : String → Prop}
    (hd : Resembles data lost d d₀) {id : String} (hid : Path.IsName id) (hnone : m.deposits id = none)
    (user out : String) (fresh : Fresh F) :
    Fs.WarySafe (fun d' => Resembles data lost d' d₀) (fun d' => Resembles data lost d' d₀)
      (cmdDecrypt C A D cwd data id user out fresh) (fun _ _ => False) d := by
  apply (reads_loadSetup C D data d).then_wary (onlyReads_loadSetup C D data) hd hd
  rintro ⟨pp, msk⟩ hsetup
  apply (reads_loadUserKey C D data user d).then_wary (onlyReads_loadUserKey C D data user) hd hd
  intro usk husk
  have hopened : Resembles data lost (d.createDirAll (packagesDir data)) d₀ :=
    (Disk.agree_createDirAll (fun _ hp => hp.notMem_packagesDir) d).trans hd
  refine Cmd.Safe.bind (Q := fun store d' => store = packageStore data ∧
    d' = d.createDirAll (packagesDir data)) (Cmd.Safe.mapErr ?_) ?_
  · refine Cmd.Safe.bind (Q := fun _ d' => d' = d.createDirAll (packagesDir data)) ?_
      fun _ d' hd => Cmd.safe_pure ⟨rfl, hd⟩
    refine Fs.wary_createDirAll hd (fun n => ?_) rfl
    exact (Disk.agree_createPart (fun _ hp => hp.notMem_packagesDir) d n).trans hd
  rintro store d' ⟨rfl, rfl⟩
  refine (PackageStore.reads_get C D (packageStore data) id _).mapErr.then_wary
    (I := fun d' => Resembles data lost d' d₀) (E := fun d' => Resembles data lost d' d₀)
    (onlyReads_get C D (packageStore data) id).mapErr hopened hopened fun package hpackage => ?_
  -- there is no wrapped key
  obtain ⟨-, b, hb⟩ := PackageStore.of_packageOn_eq_ok C D (Outcome.mapErr_eq_ok.1 hpackage)
  have hlookup : d.files.lookup ((File.wrappedKey id).path data) =
      d₀.files.lookup ((File.wrappedKey id).path data) :=
    hd.lookup _ (visible_path (by simp) (by simp) (by simp))
  have hfiled : w.packages id = none := by
    rcases h.deposits id with ⟨-, hfiled⟩ | ⟨deposit, _, _, hsome, -⟩
    · exact hfiled
    · rw [hnone] at hsome
      cases hsome
  have hview : d₀.files.lookup ((File.wrappedKey id).path data) = none := by
    have := congrFun h.represents.view (.wrappedKey id)
    rwa [World.contents, hfiled] at this
  rw [wrappedKeyPath_eq hid, Disk.files_createDirAll, hlookup, hview] at hb
  cases hb

variable (hC : C.ReadsBack) (hX : D.HexReadsBack) (hD : D.ReadsShallow) (hA : A.Correct) {p : ℕ}
  [CharP F p] (hp : 2 ^ 64 < p)

/-- An attempt to decrypt a package that the monitor does not have. -/
theorem Follows.missing (h : Follows C A D data d msk drawn m) {id : String} (hid : Path.IsName id)
    (hnone : m.deposits id = none) (user out : String) (fresh : Fresh F) (course : Course) :
    let attempt := Attempt.mk ⟨.decrypt id user out, fresh⟩ course
    (attempt.exec C A D cwd data d).1 ≠ some (.ok ()) ∧
      Follows C A D data (attempt.exec C A D cwd data d).2 msk drawn m := by
  intro attempt
  obtain ⟨d₀, w, past, lost, hmirrors, hmsk, hd, hids⟩ := h
  have hsafe : Fs.WarySafe _ _ (cmdDecrypt C A D cwd data id user out fresh) _ d :=
    hmirrors.wary_missing hd hid hnone user out fresh
  have hrun : ∃ faults, attempt.exec C A D cwd data d =
      Prog.runFaulty FileOp.wary (cmdDecrypt C A D cwd data id user out fresh) faults d := by
    cases course with
    | disturbed faults => exact ⟨faults, rfl⟩
    | undisturbed =>
      obtain ⟨faults, hfaults⟩ := Fs.exists_wary_eq_exec (cmdDecrypt C A D cwd data id user out fresh) d
      exact ⟨faults, hfaults.symm⟩
  obtain ⟨faults, hrun⟩ := hrun
  rw [hrun]
  refine ⟨fun hok => ?_, d₀, w, past, lost, hmirrors, hmsk, ?_, hids⟩
  · exact ((Prog.Safe.of_run hsafe faults).2 _ hok).1 () rfl
  · exact (hsafe.mono (fun _ hd => hd) (fun _ hd => hd) fun _ _ hfalse => hfalse.elim).of_run faults

omit [DecidableEq F] in
/-- The ids that are drawn in one more command. -/
theorem Follows.intro {drawn' : List String} {d₀ d' : Disk} {w' : World F G₁ G₂ Gₜ} {past' : List Happening}
    {m' : Monitor} {lost : String → Prop} (h : Mirrors C A D data d₀ w' past' m') (hmsk : w'.msk = msk)
    (hd : Resembles data lost d' d₀)
    (hids : ∀ id, (lost id → m'.deposits id = none ∧ id ∈ drawn ++ drawn') ∧
      (m'.deposits id ≠ none → id ∈ drawn ++ drawn')) : Follows C A D data d' msk (drawn ++ drawn') m' :=
  ⟨d₀, w', past', lost, h, hmsk, hd, hids⟩

include hC hX hD hA hp

/-- **One attempt** is accounted for. -/
theorem Follows.attempt (h : Follows C A D data d msk drawn m) (hbeta : msk.beta ≠ 0)
    {attempt : Attempt F} (hproper : attempt.call.Proper cwd data)
    (hnew : ∀ id ∈ attempt.call.drawn D, id ∉ drawn) :
    ∃ m', m.Account D cwd attempt (attempt.exec C A D cwd data d).1 m' ∧
      Follows C A D data (attempt.exec C A D cwd data d).2 msk (drawn ++ attempt.call.drawn D) m' := by
  obtain ⟨d₀, w, past, lost, hmirrors, hmsk, hd, hids⟩ := h
  obtain ⟨call, course⟩ := attempt
  have hsetup : call.command ≠ .setup := by
    intro hcommand
    have hregular := hproper.1
    unfold Call.Regular at hregular
    rw [hcommand] at hregular
    exact hregular
  by_cases hlost : ∃ id user out, call.command = .decrypt id user out ∧ lost id
  · -- of a lost package there is no wrapped key
    obtain ⟨id, user, out, hcommand, hid⟩ := hlost
    obtain ⟨command, fresh⟩ := call
    obtain rfl : command = .decrypt id user out := hcommand
    have hnone := ((hids id).1 hid).1
    have hfollows : Follows C A D data d msk drawn m := ⟨d₀, w, past, lost, hmirrors, hmsk, hd, hids⟩
    have hmissing : ((Attempt.mk ⟨.decrypt id user out, fresh⟩ course).exec C A D cwd data d).1 ≠
        some (.ok ()) ∧ _ := hfollows.missing hproper.2.1 hnone user out fresh course
    obtain ⟨hreport, hafter⟩ := hmissing
    have hdrawn : (Call.mk (.decrypt id user out) fresh).drawn D = [] := rfl
    rw [hdrawn, List.append_nil]
    refine ⟨m, ?_, hafter⟩
    cases course with
    | disturbed faults => exact .dropped (by simp) hreport
    | undisturbed =>
      have hanswers : m.Answers D cwd ⟨.decrypt id user out, fresh⟩
          ((Call.mk (.decrypt id user out) fresh).exec C A D cwd data d).1 :=
        Or.inr ⟨id, user, out, rfl, hnone, fun hok => hreport (congrArg some hok)⟩
      have haccount : m.Account D cwd ⟨⟨.decrypt id user out, fresh⟩, .undisturbed⟩ _ _ :=
        .answered rfl hanswers
      rwa [Monitor.perform_missing hnone] at haccount
  have hsees : Seeing data lost (call.command.run C A D cwd data call.fresh) :=
    sees_run hproper fun id user out hcommand hid => hlost ⟨id, user, out, hcommand, hid⟩
  obtain ⟨hreply, w', past', hmirrors', hmsk'⟩ := hmirrors.agrees hC hX hD hA hp (hmsk ▸ hbeta) hproper
  -- after the step of the monitor, the same packages are lost
  have hidsAfter : ∀ id, (lost id → (m.perform D cwd call).2.deposits id = none ∧ id ∈ drawn ++ call.drawn D) ∧
      ((m.perform D cwd call).2.deposits id ≠ none → id ∈ drawn ++ call.drawn D) := by
    intro id
    by_cases hdrawn : id ∈ call.drawn D
    · exact ⟨fun hid => absurd ((hids id).1 hid).2 (hnew id hdrawn),
        fun _ => List.mem_append_right _ hdrawn⟩
    · rw [Monitor.deposits_perform hsetup hdrawn]
      exact ⟨fun hid => ((hids id).1 hid).imp_right (List.mem_append_left _),
        fun hid => List.mem_append_left _ ((hids id).2 hid)⟩
  cases course with
  | undisturbed =>
    obtain ⟨hsame, hafter⟩ := Fs.agree_exec_of_only hsees hd
    refine ⟨_, .answered rfl (Or.inl ?_), Follows.intro hmirrors' (hmsk'.trans hmsk) hafter hidsAfter⟩
    exact hsame.trans hreply
  | disturbed faults =>
    obtain ⟨hsame, hafter⟩ := Fs.agree_of_only hsees hd faults
    have hwary := wary_run hC hX hD hmirrors hproper.1
    by_cases hok : ((Attempt.mk call (.disturbed faults)).exec C A D cwd data d).1 = some (.ok ())
    · have heffective := ((Prog.Safe.of_run hwary faults).2 _ (hsame.symm.trans hok)).1 () rfl
      exact ⟨_, .happened (by simp) (hreply.symm.trans heffective.1), Follows.intro hmirrors'
        (hmsk'.trans hmsk) (hafter.trans (resembles_mono heffective.2 fun _ => False.elim)) hidsAfter⟩
    have hhalted := (hwary.mono (fun _ h => h) (fun _ h => h) fun _ _ => Or.inr).of_run faults
    rcases hhalted with ⟨d₁, w₁, hmirrors₁, hmsk₁, hagree⟩ | heffective
    · -- what there is of a new package is lost
      refine ⟨m, .dropped (by simp) hok, Follows.intro hmirrors₁ (hmsk₁.trans hmsk)
        ((resembles_mono hafter fun _ => Or.inl).trans (resembles_mono hagree fun _ => Or.inr)) fun id =>
        ⟨?_, fun hid => List.mem_append_left _ ((hids id).2 hid)⟩⟩
      rintro (hid | htakes)
      · exact ((hids id).1 hid).imp_right (List.mem_append_left _)
      · have hdrawn := mem_drawn.2 htakes
        exact ⟨by_contra fun hdeposit => hnew id hdrawn ((hids id).2 hdeposit),
          List.mem_append_right _ hdrawn⟩
    · exact ⟨_, .happened (by simp) (hreply.symm.trans heffective.1), Follows.intro hmirrors'
        (hmsk'.trans hmsk) (hafter.trans (resembles_mono heffective.2 fun _ => False.elim)) hidsAfter⟩

end Attempt

/-! ## Runs -/

section Run

variable (hC : C.ReadsBack) (hX : D.HexReadsBack) (hD : D.ReadsShallow) (hA : A.Correct) {p : ℕ}
  [CharP F p] (hp : 2 ^ 64 < p)
include hC hX hD hA hp

/-- **A run** is accounted for. -/
theorem Follows.attemptAll {d : Disk} {msk : MasterSecret F} {drawn : List String} {m : Monitor}
    (h : Follows C A D data d msk drawn m) (hbeta : msk.beta ≠ 0) {attempts : List (Attempt F)}
    (hproper : ∀ attempt ∈ attempts, attempt.call.Proper cwd data)
    (hnew : (drawn ++ attempts.flatMap fun attempt => attempt.call.drawn D).Nodup) :
    ∃ m' drawn', m.Accounts D cwd attempts (attemptAll C A D cwd data attempts d).1 m' ∧
      Follows C A D data (attemptAll C A D cwd data attempts d).2 msk drawn' m' := by
  induction attempts generalizing d drawn m with
  | nil => exact ⟨m, drawn, .nil m, h⟩
  | cons attempt attempts ih =>
    rw [List.flatMap_cons, ← List.append_assoc] at hnew
    have hfirst : ∀ id ∈ attempt.call.drawn D, id ∉ drawn := fun id hid hmem =>
      (List.nodup_append.1 (List.nodup_append.1 hnew).1).2.2 id hmem id hid rfl
    obtain ⟨m₁, haccount, h₁⟩ := h.attempt hC hX hD hA hp hbeta (hproper attempt List.mem_cons_self) hfirst
    obtain ⟨m', drawn', haccounts, h'⟩ := ih h₁ (fun a ha => hproper a (List.mem_cons_of_mem _ ha)) hnew
    exact ⟨m', drawn', .cons haccount haccounts, h'⟩

end Run

end SecureABE.Cli
