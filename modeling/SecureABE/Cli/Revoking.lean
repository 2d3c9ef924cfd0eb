import SecureABE.Cli.Refinement
import SecureABE.Foundations.Generations

/-!
# Revoking without epochs

Epochs are how the program tells grants of before a revocation from later ones. Here is what comes of it,
in terms of the commands alone: a user opens a package exactly if its policy is satisfied by attributes
each of which an `issue` has given them, such that no `revoke-attribute` of it lies between that `issue`
and the `encrypt`, whichever of the two came first (`decrypts_iff_unrevoked`).

The monitor has, after a run, the epochs and grants that the commands say (`Monitor.epoch_run`,
`Monitor.mem_grants_run`), and what lies between follows from the generations of a counter.
-/

namespace SecureABE.Cli

open Rust SecureABE.Core SecureABE.Policy SecureABE.Authorities SecureABE.Envelope SecureABE.Storage

/-- An `issue` asks for the attribute for the user. -/
def Command.Asks (user a : String) (command : Command) : Prop :=
  ∃ args claims, command = .issue args ∧ args.user = user ∧
    parseClaims args.flags args.texts args.numerics = .ok claims ∧ a ∈ resolved claims

/-- The command revokes the attribute. -/
def Command.revokes (a : String) : Command → Bool
  | .revokeAttribute attr => attr = a
  | _ => false

@[simp] theorem revokes_revokeAttribute (a attr : String) :
    (Command.revokeAttribute attr).revokes a = decide (attr = a) := rfl

@[simp] theorem revokes_eq_false_iff {a : String} {command : Command} :
    command.revokes a = false ↔ command ≠ .revokeAttribute a := by
  cases command <;> simp [Command.revokes]

/-- A package is stored under the id. -/
def Command.Stores (id drawn : String) (command : Command) : Prop :=
  (∃ file policy, command = .encrypt file policy) ∧ drawn = id

/-! ## The monitor -/

namespace Monitor

variable {cwd : Path} {m : Monitor} {command : Command}

theorem run_append (xs ys : List (Command × String)) (m : Monitor) : m.run cwd (xs ++ ys) =
    ((m.run cwd xs).1 ++ ((m.run cwd xs).2.run cwd ys).1, ((m.run cwd xs).2.run cwd ys).2) := by
  induction xs generalizing m with
  | nil => rfl
  | cons c xs ih => simp only [List.cons_append, run, ih]

/-- What a command other than a setup makes of the epochs, the grants and the deposits. -/
inductive Moves (m : Monitor) : Command → String → Outcome String Unit → Monitor → Prop
  | granted {args : IssueArgs} {claims : List Claim} {id : String}
      (h : parseClaims args.flags args.texts args.numerics = .ok claims) :
      Moves m (.issue args) id (.ok ())
        (m.grant args.user ((resolved claims).map fun a => (a, m.epoch a)))
  | deposited {file policy id : String} {tree : AccessTree} {plaintext : Bytes}
      (h : parse policy = .ok tree) :
      Moves m (.encrypt file policy) id (.ok ()) (m.deposit id tree plaintext)
  | revoked {attr id : String} : Moves m (.revokeAttribute attr) id (.ok ())
      { m with epoch := Function.update m.epoch attr (m.epoch attr + 1) }
  | left {command : Command} {id : String} {reply : Outcome String Unit} {m' : Monitor}
      (hissue : ∀ args, command = .issue args → reply ≠ .ok ())
      (hencrypt : ∀ file policy, command = .encrypt file policy → reply ≠ .ok ())
      (hrevoke : ∀ attr, command ≠ .revokeAttribute attr) (hepoch : m'.epoch = m.epoch)
      (hgrants : m'.grants = m.grants) (hdeposits : m'.deposits = m.deposits) :
      Moves m command id reply m'

theorem moves_step (cwd : Path) (m : Monitor) (hsetup : command ≠ .setup) (id : String) :
    Moves m command id (m.step cwd command id).1 (m.step cwd command id).2 := by
  cases hrespond : m.respond cwd command id with
  | error e =>
    rw [step_of_error hrespond]
    refine .left (fun _ _ h => by cases h) (fun _ _ _ h => by cases h) ?_ rfl rfl rfl
    rintro attr rfl
    cases hrespond
  | ok m₁ =>
    rw [step_of_ok hrespond]
    cases command with
    | setup => exact absurd rfl hsetup
    | issue args =>
      obtain ⟨-, claims, hclaims, -, rfl⟩ := issue_eq_ok.1 hrespond
      exact .granted hclaims
    | encrypt file policy =>
      obtain ⟨tree, htree, hrespond⟩ := bind_eq_ok.1 hrespond
      obtain ⟨plaintext, -, hrespond⟩ := bind_eq_ok.1 hrespond
      obtain rfl := Except.ok.inj hrespond
      exact .deposited (Outcome.ofExcept_eq_ok.1 htree)
    | decrypt id' user out =>
      obtain ⟨grants, deposit, -, -, -, rfl⟩ := decrypt_eq_ok.1 hrespond
      exact .left (by simp) (by simp) (by simp) rfl rfl rfl
    | registerAuthority name controls | revokeUser user =>
      obtain rfl := Except.ok.inj hrespond
      exact .left (by simp) (by simp) (by simp) rfl rfl rfl
    | revokeAttribute attr =>
      obtain rfl := Except.ok.inj hrespond
      exact .revoked

variable {id : String} {reply : Outcome String Unit} {m' : Monitor}

/-- A revocation goes to the next epoch of the attribute. -/
theorem Moves.epoch_eq (h : Moves m command id reply m') (a : String) :
    m'.epoch a = m.epoch a + if command.revokes a then 1 else 0 := by
  cases h with
  | granted | deposited => exact (UInt64.add_zero _).symm
  | @revoked attr =>
    change Function.update m.epoch attr (m.epoch attr + 1) a = _
    by_cases ha : a = attr
    · subst ha
      simp
    · simp [Function.update_of_ne ha, Ne.symm ha]
  | left hissue hencrypt hrevoke hepoch hgrants hdeposits =>
    have hother : command.revokes a = false := by simpa using hrevoke a
    rw [hepoch, hother]
    exact (UInt64.add_zero _).symm

/-- An `issue` that succeeds grants what it asks for, at the epochs of now. -/
theorem Moves.mem_grants_iff (h : Moves m command id reply m') {user a : String} {e : UInt64} :
    (a, e) ∈ (m'.grants user).getD [] ↔ (a, e) ∈ (m.grants user).getD [] ∨
      command.Asks user a ∧ reply = .ok () ∧ e = m.epoch a := by
  have hnone : ¬ (command.Asks user a ∧ reply = .ok ()) → m'.grants = m.grants →
      ((a, e) ∈ (m'.grants user).getD [] ↔ (a, e) ∈ (m.grants user).getD [] ∨
        command.Asks user a ∧ reply = .ok () ∧ e = m.epoch a) := by
    intro hasks hgrants
    rw [hgrants, or_iff_left]
    exact fun ⟨ha, hreply, _⟩ => hasks ⟨ha, hreply⟩
  cases h with
  | @granted args claims id hclaims =>
    change (a, e) ∈ (Function.update m.grants args.user _ user).getD [] ↔ _
    by_cases hu : user = args.user
    · subst hu
      rw [Function.update_self, Option.getD_some, List.mem_append, List.mem_map]
      refine or_congr_right ⟨?_, ?_⟩
      · rintro ⟨b, hb, heq⟩
        obtain ⟨rfl, rfl⟩ := Prod.mk.inj heq
        exact ⟨⟨args, claims, rfl, rfl, hclaims, hb⟩, rfl, rfl⟩
      · rintro ⟨⟨args', claims', hargs, -, hclaims', ha⟩, -, rfl⟩
        obtain rfl := Command.issue.inj hargs
        obtain rfl := Except.ok.inj (hclaims.symm.trans hclaims')
        exact ⟨a, ha, rfl⟩
    · rw [Function.update_of_ne hu, or_iff_left]
      rintro ⟨⟨args', claims', hargs, huser, -⟩, -⟩
      obtain rfl := Command.issue.inj hargs
      exact hu huser.symm
  | deposited | revoked =>
    refine hnone ?_ rfl
    rintro ⟨⟨args, claims, hargs, -⟩, -⟩
    cases hargs
  | left hissue hencrypt hrevoke hepoch hgrants hdeposits =>
    refine hnone ?_ hgrants
    rintro ⟨⟨args, claims, hargs, -⟩, hreply⟩
    exact hissue args hargs hreply

/-- The other packages stay as they are. -/
theorem Moves.deposits_eq (h : Moves m command id reply m') {id' : String}
    (hid : ¬ command.Stores id' id) : m'.deposits id' = m.deposits id' := by
  cases h with
  | granted | revoked => rfl
  | @deposited file policy id tree plaintext htree =>
    exact Function.update_of_ne (fun heq => hid ⟨⟨file, policy, rfl⟩, heq.symm⟩) _ _
  | left hissue hencrypt hrevoke hepoch hgrants hdeposits => rw [hdeposits]

/-- An `encrypt` that succeeds deposits something under the tree of its policy. -/
theorem Moves.exists_deposit {file policy : String} (h : Moves m (.encrypt file policy) id (.ok ()) m') :
    ∃ tree plaintext, parse policy = .ok tree ∧ m' = m.deposit id tree plaintext := by
  cases h with
  | @deposited file policy id tree plaintext htree => exact ⟨tree, plaintext, htree, rfl⟩
  | left hissue hencrypt hrevoke hepoch hgrants hdeposits => exact absurd rfl (hencrypt file policy rfl)

theorem deposits_run {cmds : List (Command × String)} (hsetup : ∀ c ∈ cmds, c.1 ≠ .setup)
    (hid : ∀ c ∈ cmds, ¬ c.1.Stores id c.2) (m : Monitor) :
    (m.run cwd cmds).2.deposits id = m.deposits id := by
  induction cmds generalizing m with
  | nil => rfl
  | cons c cmds ih =>
    have hstep := (moves_step cwd m (hsetup c List.mem_cons_self) c.2).deposits_eq
      (hid c List.mem_cons_self)
    rw [run]
    exact (ih (fun c' hc' => hsetup c' (List.mem_cons_of_mem _ hc'))
      (fun c' hc' => hid c' (List.mem_cons_of_mem _ hc')) _).trans hstep

/-- **A deposit is opened** with granted attributes at its epochs. -/
theorem decrypt_reply_iff {deposit : Deposit} (hdeposit : m.deposits id = some deposit)
    (hpositive : deposit.policy.Positive) {user out drawn : String} :
    (m.step cwd (.decrypt id user out) drawn).1 = .ok () ↔ ∃ attrs,
      deposit.policy.isSatisfiedBy attrs = true ∧
      ∀ a ∈ attrs, (a, deposit.epoch a) ∈ (m.grants user).getD [] := by
  have hreply : (m.step cwd (.decrypt id user out) drawn).1 = .ok () ↔
      ∃ m', m.decrypt cwd id user out = .ok m' := by
    cases hrespond : m.respond cwd (.decrypt id user out) drawn with
    | error e =>
      rw [step_of_error hrespond]
      exact iff_of_false (fun h => by cases h) fun ⟨m', h⟩ => by cases hrespond.symm.trans h
    | ok m' =>
      rw [step_of_ok hrespond]
      exact iff_of_true rfl ⟨m', hrespond⟩
  rw [hreply]
  constructor
  · rintro ⟨m', h⟩
    obtain ⟨grants, deposit', hgrants, hdeposit', hopens, -⟩ := decrypt_eq_ok.1 h
    obtain rfl := Option.some.inj (hdeposit.symm.trans hdeposit')
    rw [hgrants]
    exact ⟨_, hopens, fun a ha => mem_currentOf.1 ha⟩
  · rintro ⟨attrs, hattrs, hgranted⟩
    cases hgrants : m.grants user with
    | none =>
      -- nobody opens a package with no attributes at all
      rw [hgrants] at hgranted
      obtain rfl : attrs = [] := List.eq_nil_iff_forall_not_mem.2 fun a ha => by simpa using hgranted a ha
      rw [AccessTree.not_isSatisfiedBy_nil hpositive] at hattrs
      cases hattrs
    | some grants =>
      rw [hgrants] at hgranted
      have hopens : deposit.opens grants = true :=
        AccessTree.isSatisfiedBy_mono (fun a ha => mem_currentOf.2 (hgranted a ha)) _ hattrs
      exact ⟨_, decrypt_eq_ok.2 ⟨grants, deposit, hgrants, hdeposit, hopens, rfl⟩⟩

end Monitor

/-! ## Runs -/

variable {F G₁ G₂ Gₜ : Type} [Field F] [DecidableEq F] [AddCommGroup G₁] [Module F G₁]
  [AddCommGroup G₂] [Module F G₂] [AddCommGroup Gₜ] [Module F Gₜ]
variable (C : Curve F G₁ G₂ Gₜ) (A : Cipher) (D : Codec) (cwd data : Path)

/-- After the commands of the past, an `issue` that asks for the attribute for the user succeeds. -/
def Gives (d : Disk) (user a : String) (past : List (Call F)) (call : Call F) : Prop :=
  call.command.Asks user a ∧ (call.exec C A D cwd data (runAll C A D cwd data past d)).1 = .ok ()

/-- The monitor has the epochs and the grants that the commands say. -/
structure Recounts (d : Disk) (calls : List (Call F)) (m : Monitor) : Prop where
  epoch : ∀ a, m.epoch a = generation (fun call => call.command.revokes a) calls
  grants : ∀ user a e, (a, e) ∈ (m.grants user).getD [] ↔ ∃ past call rest,
    calls = past ++ call :: rest ∧ Gives C A D cwd data d user a past call ∧
      e = generation (fun call => call.command.revokes a) past

variable {C A D cwd data}

theorem Recounts.concat {d : Disk} {calls : List (Call F)} {m m' : Monitor} {call : Call F} {id : String}
    (h : Recounts C A D cwd data d calls m)
    (hmoves : m.Moves call.command id (call.exec C A D cwd data (runAll C A D cwd data calls d)).1 m') :
    Recounts C A D cwd data d (calls ++ [call]) m' := by
  refine ⟨fun a => ?_, fun user a e => ?_⟩
  · rw [hmoves.epoch_eq, h.epoch, generation_concat]
  · rw [hmoves.mem_grants_iff, h.grants, h.epoch, exists_event_concat_iff, Gives, and_assoc]

/-- A setup grants nothing. -/
theorem recounts_setup (d : Disk) (fresh : Fresh F) (documents : Path → Option Bytes) :
    Recounts C A D cwd data d [⟨.setup, fresh⟩] (Monitor.start documents) := by
  refine ⟨fun a => rfl, fun user a e => iff_of_false (by simp [Monitor.start]) ?_⟩
  rintro ⟨past, call, rest, heq, ⟨⟨args, claims, hcommand, -⟩, -⟩, -⟩
  obtain rfl : call = ⟨.setup, fresh⟩ := by
    have hmem : call ∈ [Call.mk Command.setup fresh] := by rw [heq]; simp
    simpa using hmem
  cases hcommand

/-- What is granted at the epochs of a mark is what is given without a revocation in between. -/
theorem Recounts.uninterrupted_iff {d : Disk} {before later : List (Call F)} {mark : Call F}
    {m m' : Monitor} (h : Recounts C A D cwd data d before m)
    (h' : Recounts C A D cwd data d (before ++ mark :: later) m')
    (hmark : ∃ file policy, mark.command = .encrypt file policy) (user : String) {a : String}
    (hcount : (before ++ later).countP (fun call => call.command.revokes a) < 2 ^ 64) :
    (a, m.epoch a) ∈ (m'.grants user).getD [] ↔ Uninterrupted (Gives C A D cwd data d user a)
      (fun call => call.command.revokes a) before mark later := by
  obtain ⟨file, policy, hmark⟩ := hmark
  have hgives : ∀ past call, Gives C A D cwd data d user a past call →
      call ≠ mark ∧ call.command.revokes a = false := by
    rintro past call ⟨⟨args, claims, hcommand, -⟩, -⟩
    refine ⟨?_, by simp [hcommand]⟩
    rintro rfl
    cases hcommand.symm.trans hmark
  rw [h'.grants, h.epoch, ← exists_generation_eq_iff hgives (by simp [hmark]) hcount]
  exact exists_congr fun past => exists_congr fun call => exists_congr fun rest =>
    and_congr_right fun _ => and_congr_right fun _ => eq_comm

variable (C A D cwd data) in
theorem outcomes_append (calls calls' : List (Call F)) (d : Disk) :
    outcomes C A D cwd data (calls ++ calls') d = outcomes C A D cwd data calls d ++
      outcomes C A D cwd data calls' (runAll C A D cwd data calls d) := by
  induction calls generalizing d with
  | nil => rfl
  | cons call calls ih => exact congrArg _ (ih _)

omit [Field F] [DecidableEq F] in
theorem requests_append (calls calls' : List (Call F)) :
    requests D (calls ++ calls') = requests D calls ++ requests D calls' := List.map_append

variable (D cwd) in
/-- The monitor after the calls. -/
def monitorAfter (calls : List (Call F)) (d : Disk) : Monitor :=
  ((Monitor.start d.files.lookup).run cwd (requests D calls)).2

omit [Field F] [DecidableEq F] in
theorem monitorAfter_append (calls calls' : List (Call F)) (d : Disk) :
    monitorAfter D cwd (calls ++ calls') d =
      ((monitorAfter D cwd calls d).run cwd (requests D calls')).2 := by
  rw [monitorAfter, requests_append, Monitor.run_append]
  rfl

omit [Field F] [DecidableEq F] in
theorem Call.Proper.ne_setup {call : Call F} (h : call.Proper cwd data) : call.command ≠ .setup := by
  obtain ⟨command, fresh⟩ := call
  rintro rfl
  cases h.1

section Start

variable (hC : C.ReadsBack) (hX : D.HexReadsBack) (hD : D.ReadsShallow) (hA : A.Correct) {p : ℕ} [CharP F p]
  (hp : 2 ^ 64 < p) {d : Disk} (hd : ∀ q, Own data q → d.has q = false) (setupFresh : Fresh F)
  (hbeta : (setup C setupFresh.scalars).1.2.beta ≠ 0)
include hC hX hD hA hp hd hbeta

/-- After a setup and other commands, the next one has the reply of the monitor. -/
theorem exec_eq_step {calls : List (Call F)} (hcalls : ∀ call ∈ calls, call.Proper cwd data)
    {call : Call F} (hcall : call.Proper cwd data) :
    (call.exec C A D cwd data (runAll C A D cwd data (⟨.setup, setupFresh⟩ :: calls) d)).1 =
      ((monitorAfter D cwd (⟨.setup, setupFresh⟩ :: calls) d).step cwd call.command
        (newId D call.fresh.stamp)).1 := by
  have hmore : ∀ c ∈ calls ++ [call], c.Proper cwd data :=
    List.forall_mem_append.2 ⟨hcalls, List.forall_mem_singleton.2 hcall⟩
  have hreplies := (exists_mirrors_setup hC hX hD hA hp hd setupFresh hbeta hcalls).1
  have hlast := (exists_mirrors_setup hC hX hD hA hp hd setupFresh hbeta hmore).1
  rw [← List.cons_append, outcomes_append, hreplies, requests_append, Monitor.run_append] at hlast
  exact (List.cons.inj (List.append_cancel_left hlast)).1

theorem moves_exec {calls : List (Call F)} (hcalls : ∀ call ∈ calls, call.Proper cwd data)
    {call : Call F} (hcall : call.Proper cwd data) :
    (monitorAfter D cwd (⟨.setup, setupFresh⟩ :: calls) d).Moves call.command (newId D call.fresh.stamp)
      (call.exec C A D cwd data (runAll C A D cwd data (⟨.setup, setupFresh⟩ :: calls) d)).1
      (monitorAfter D cwd (⟨.setup, setupFresh⟩ :: (calls ++ [call])) d) := by
  rw [exec_eq_step hC hX hD hA hp hd setupFresh hbeta hcalls hcall, ← List.cons_append,
    monitorAfter_append]
  exact Monitor.moves_step cwd _ hcall.ne_setup _

/-- **The monitor recounts** a run. -/
theorem recounts_run {calls : List (Call F)} (hcalls : ∀ call ∈ calls, call.Proper cwd data) :
    Recounts C A D cwd data d (⟨.setup, setupFresh⟩ :: calls)
      (monitorAfter D cwd (⟨.setup, setupFresh⟩ :: calls) d) := by
  induction calls using List.reverseRecOn with
  | nil => exact recounts_setup d setupFresh _
  | append_singleton calls call ih =>
    obtain ⟨hcalls, hcall⟩ := List.forall_mem_append.1 hcalls
    exact (ih hcalls).concat
      (moves_exec hC hX hD hA hp hd setupFresh hbeta hcalls (hcall call (List.mem_singleton_self call)))

/-- A package that is stored is in the monitor, at the epochs of the time, until its id is drawn again. -/
theorem exists_deposit_after {before later : List (Call F)} {file policy : String} {fresh : Fresh F}
    (hcalls : ∀ call ∈ before ++ ⟨.encrypt file policy, fresh⟩ :: later, call.Proper cwd data)
    (hstored : ((Call.mk (.encrypt file policy) fresh).exec C A D cwd data
      (runAll C A D cwd data (⟨.setup, setupFresh⟩ :: before) d)).1 = .ok ())
    (hspares : ∀ call ∈ later, ¬ call.Takes D (newId D fresh.stamp)) :
    ∃ tree plaintext, parse policy = .ok tree ∧
      (monitorAfter D cwd (⟨.setup, setupFresh⟩ :: (before ++ ⟨.encrypt file policy, fresh⟩ :: later))
        d).deposits (newId D fresh.stamp) =
          some ⟨tree, (monitorAfter D cwd (⟨.setup, setupFresh⟩ :: before) d).epoch, plaintext⟩ := by
  obtain ⟨hbefore, hrest⟩ := List.forall_mem_append.1 hcalls
  obtain ⟨hproper, hlater⟩ := List.forall_mem_cons.1 hrest
  have hmoves := moves_exec hC hX hD hA hp hd setupFresh hbeta hbefore hproper
  rw [hstored] at hmoves
  obtain ⟨tree, plaintext, htree, hdeposit⟩ := hmoves.exists_deposit
  refine ⟨tree, plaintext, htree, ?_⟩
  rw [List.append_cons, ← List.cons_append, monitorAfter_append, hdeposit]
  refine (Monitor.deposits_run (List.forall_mem_map.2 fun call hcall => ?_)
    (List.forall_mem_map.2 fun call hcall => ?_) _).trans (Function.update_self _ _ _)
  · exact (hlater call hcall).ne_setup
  · exact hspares call hcall

/-- **Revoking without epochs**: after a run, a user can decrypt a package exactly if its policy is
satisfied by attributes each of which a successful `issue` has given to them, with no revocation of the
attribute between that `issue` and the `encrypt` of the package. -/
theorem decrypts_iff_unrevoked {before later : List (Call F)} {file policy : String} {fresh : Fresh F}
    (hcalls : ∀ call ∈ before ++ ⟨.encrypt file policy, fresh⟩ :: later, call.Proper cwd data)
    (hstored : ((Call.mk (.encrypt file policy) fresh).exec C A D cwd data
      (runAll C A D cwd data (⟨.setup, setupFresh⟩ :: before) d)).1 = .ok ())
    (hspares : ∀ call ∈ later, ¬ call.Takes D (newId D fresh.stamp))
    (hcount : ∀ a, (before ++ later).countP (fun call => call.command.revokes a) < 2 ^ 64)
    {user out : String} {decryptFresh : Fresh F}
    (hdecrypt : (Call.mk (.decrypt (newId D fresh.stamp) user out) decryptFresh).Proper cwd data) :
    ((Call.mk (.decrypt (newId D fresh.stamp) user out) decryptFresh).exec C A D cwd data
        (runAll C A D cwd data
          (⟨.setup, setupFresh⟩ :: (before ++ ⟨.encrypt file policy, fresh⟩ :: later)) d)).1 = .ok () ↔
      ∃ tree attrs, parse policy = .ok tree ∧ tree.isSatisfiedBy attrs = true ∧ ∀ a ∈ attrs,
        Uninterrupted (Gives C A D cwd data d user a) (fun call => call.command.revokes a)
          (⟨.setup, setupFresh⟩ :: before) ⟨.encrypt file policy, fresh⟩ later := by
  obtain ⟨tree, plaintext, htree, hdeposit⟩ :=
    exists_deposit_after hC hX hD hA hp hd setupFresh hbeta hcalls hstored hspares
  have hbefore := recounts_run hC hX hD hA hp hd setupFresh hbeta (List.forall_mem_append.1 hcalls).1
  have hafter := recounts_run hC hX hD hA hp hd setupFresh hbeta hcalls
  have hcount' : ∀ a, ((⟨.setup, setupFresh⟩ :: before) ++ later).countP
      (fun call => call.command.revokes a) < 2 ^ 64 := by
    intro a
    rw [List.cons_append, List.countP_cons_of_neg (by simp)]
    exact hcount a
  rw [exec_eq_step hC hX hD hA hp hd setupFresh hbeta hcalls hdecrypt,
    Monitor.decrypt_reply_iff hdeposit (parse_fits htree).positive]
  have hgranted := fun a =>
    hbefore.uninterrupted_iff hafter ⟨file, policy, rfl⟩ user (hcount' a)
  constructor
  · rintro ⟨attrs, hattrs, hgrants⟩
    exact ⟨tree, attrs, htree, hattrs, fun a ha => (hgranted a).1 (hgrants a ha)⟩
  · rintro ⟨tree', attrs, htree', hattrs, hgiven⟩
    obtain rfl := Except.ok.inj (htree.symm.trans htree')
    exact ⟨attrs, hattrs, fun a ha => (hgranted a).2 (hgiven a ha)⟩

end Start

/-- Alice is issued `a`, which is revoked then. -/
def exampleWithdrawal : List (Call Scalar) :=
  [⟨.registerAuthority "root" "", exampleFresh⟩, ⟨.issue (issueToAlice "a"), exampleFresh⟩,
    ⟨.revokeAttribute "a", exampleFresh⟩]

/-- She does not open what is encrypted afterwards. -/
theorem decrypts_iff_unrevoked_alice :
    ((Call.mk (.decrypt exampleId "alice" "copy") exampleFresh).exec exponents boxes serdeJsonUnlimited
      exampleCwd exampleData (runAll exponents boxes serdeJsonUnlimited exampleCwd exampleData
        (⟨.setup, exampleFresh⟩ :: (exampleWithdrawal ++ [⟨.encrypt "note" "a", exampleFresh⟩]))
        exampleHome)).1 ≠ .ok () := by
  have halice : '/' ∉ "alice".toList := by decide
  have hbefore : ∀ call ∈ exampleWithdrawal, call.Proper exampleCwd exampleData :=
    List.forall_mem_cons.2 ⟨⟨trivial, trivial⟩, List.forall_mem_cons.2 ⟨⟨halice, trivial⟩,
      List.forall_mem_singleton.2 ⟨trivial, trivial⟩⟩⟩
  have hproper : (Call.mk (F := Scalar) (.encrypt "note" "a") exampleFresh).Proper exampleCwd exampleData :=
    ⟨(by decide : ("a" : String).length < 2 ^ 64), not_own_exampleHome "note" [], gateDepth_of_parse_a⟩
  have hdecrypt : (Call.mk (F := Scalar) (.decrypt exampleId "alice" "copy") exampleFresh).Proper exampleCwd
      exampleData :=
    ⟨not_own_exampleHome "copy" [], isName_newId hexReadsBack_serdeJsonUnlimited exampleStamp, halice⟩
  have hprime : 2 ^ 64 < scalarModulus := by norm_num
  have hone : (1 : Scalar) ≠ 0 := one_ne_zero
  have hstored := exec_eq_step (A := boxes) readsBack_exponents hexReadsBack_serdeJsonUnlimited
    readsBack_serdeJsonUnlimited.shallow correct_boxes hprime has_exampleHome exampleFresh hone hbefore hproper
  intro hopened
  obtain ⟨tree, attrs, htree, hattrs, hgiven⟩ := (decrypts_iff_unrevoked readsBack_exponents
    hexReadsBack_serdeJsonUnlimited readsBack_serdeJsonUnlimited.shallow correct_boxes hprime has_exampleHome
    exampleFresh hone (List.forall_mem_append.2 ⟨hbefore, List.forall_mem_singleton.2 hproper⟩)
    (hstored.trans rfl) (fun call hcall => absurd hcall List.not_mem_nil)
    (fun a => (List.countP_le_length).trans_lt (by decide))
    hdecrypt).1 hopened
  obtain rfl : AccessTree.leaf "a" = tree := Except.ok.inj (Eq.trans (by rfl) htree)
  rcases hgiven "a" (by simpa using hattrs) with ⟨past, call, since, heq, hgives, hnone⟩ | ⟨past, call, rest,
    heq, -⟩
  · change [_, _, _] ++ [_] = _ at heq
    -- the revocation comes last, so it is the `issue` or comes after it
    obtain rfl | ⟨since, e, rfl⟩ := List.eq_nil_or_concat since
    · obtain ⟨⟨args, claims, hcommand, -⟩, -⟩ := hgives
      obtain rfl := (List.cons.inj (List.append_inj' heq rfl).2).1
      cases hcommand
    · rw [List.concat_eq_append] at heq hnone
      rw [← List.cons_append, ← List.append_assoc] at heq
      obtain rfl := (List.cons.inj (List.append_inj' heq rfl).2).1
      simpa using hnone _ (List.mem_append_right _ List.mem_cons_self)
  · simp at heq

end SecureABE.Cli
