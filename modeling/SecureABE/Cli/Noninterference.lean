import SecureABE.Cli.Refinement

/-!
# What other users do

Issuing to other users and their decryptions can be taken out of a run: the replies to what is left are
the same, and so are the files that no other user decrypts to (`heard_eq_outcomes`). On the monitor it is
an unwinding: such a command leaves everything alike but the grants and the files of the others
(`Monitor.Alike`), and the commands that are left reply alike to monitors that are alike.
-/

namespace SecureABE.Cli

open Rust SecureABE.Core SecureABE.Policy SecureABE.Authorities SecureABE.Envelope SecureABE.Storage

/-- The command concerns another user than this one. -/
def Command.concernsOther (user : String) : Command → Bool
  | .issue args => args.user ≠ user
  | .decrypt _ user' _ => user' ≠ user
  | _ => false

/-- The replies to the commands that do not concern another user. -/
def heard (user : String) : List Command → List (Outcome String Unit) → List (Outcome String Unit)
  | command :: commands, reply :: replies =>
    if command.concernsOther user then heard user commands replies
    else reply :: heard user commands replies
  | _, _ => []

/-- The files of the other users: they decrypt to these files only, and nobody encrypts them. -/
def Command.KeepsApart (user : String) (cwd : Path) (hidden : Path → Prop) : Command → Prop
  | .encrypt file _ => ¬ hidden (cwd.join file)
  | .decrypt _ user' out => user' ≠ user → hidden (cwd.join out)
  | _ => True

/-! ## The monitor -/

namespace Monitor

/-- Monitors that are the same for the user. -/
structure Alike (user : String) (hidden : Path → Prop) (m m' : Monitor) : Prop where
  controls : m.controls = m'.controls
  epoch : m.epoch = m'.epoch
  revoked : m.revoked = m'.revoked
  grants : m.grants user = m'.grants user
  deposits : m.deposits = m'.deposits
  documents : ∀ p, ¬ hidden p → m.documents p = m'.documents p

variable {user : String} {cwd : Path} {hidden : Path → Prop} {m m' : Monitor}

theorem Alike.refl (m : Monitor) : Alike user hidden m m :=
  ⟨rfl, rfl, rfl, rfl, rfl, fun _ _ => rfl⟩

theorem Alike.trans {m'' : Monitor} (h : Alike user hidden m m') (h' : Alike user hidden m' m'') :
    Alike user hidden m m'' :=
  ⟨h.controls.trans h'.controls, h.epoch.trans h'.epoch, h.revoked.trans h'.revoked,
    h.grants.trans h'.grants, h.deposits.trans h'.deposits,
    fun p hp => (h.documents p hp).trans (h'.documents p hp)⟩

/-- A command that concerns another user leaves everything alike. -/
theorem alike_step_of_concernsOther {command : Command} (hother : command.concernsOther user = true)
    (hcommand : command.KeepsApart user cwd hidden) (id : String) :
    Alike user hidden (m.step cwd command id).2 m := by
  cases hrespond : m.respond cwd command id with
  | error e =>
    rw [step_of_error hrespond]
    exact Alike.refl m
  | ok m₁ =>
    rw [step_of_ok hrespond]
    cases command with
    | issue args =>
      have huser : user ≠ args.user := fun heq => of_decide_eq_true hother heq.symm
      obtain ⟨-, claims, -, -, rfl⟩ := issue_eq_ok.1 hrespond
      exact ⟨rfl, rfl, rfl, Function.update_of_ne huser _ _, rfl, fun _ _ => rfl⟩
    | decrypt id' user' out =>
      have huser : user' ≠ user := of_decide_eq_true hother
      obtain ⟨grants, deposit, -, -, -, rfl⟩ := decrypt_eq_ok.1 hrespond
      refine ⟨rfl, rfl, rfl, rfl, rfl, fun p hp => Function.update_of_ne ?_ _ _⟩
      rintro rfl
      exact hp (hcommand huser)
    | _ => cases hother

theorem Alike.permitAll (h : Alike user hidden m m') (authority : String) (claims : List Claim) :
    m.permitAll authority claims = m'.permitAll authority claims := by
  induction claims with
  | nil => rfl
  | cons claim claims ih => rw [Monitor.permitAll, Monitor.permitAll, permit, permit, h.controls, ih]

/-- Two responses are the same error, or go on alike. -/
def Corresponds (user : String) (hidden : Path → Prop) : Outcome String Monitor → Outcome String Monitor → Prop
  | .ok m, .ok m' => Alike user hidden m m'
  | .error e, .error e' => e = e'
  | _, _ => False

theorem Alike.issue (h : Alike user hidden m m') {args : IssueArgs} (huser : args.user = user) :
    Corresponds user hidden (m.issue args) (m'.issue args) := by
  unfold Monitor.issue
  rw [h.revoked, h.epoch]
  by_cases hrevoked : m'.revoked args.user = true
  · rw [if_pos hrevoked, if_pos hrevoked]
    rfl
  rw [if_neg hrevoked, if_neg hrevoked]
  cases parseClaims args.flags args.texts args.numerics with
  | error e => rfl
  | ok claims =>
    rw [ok_bind, ok_bind, h.permitAll]
    cases Outcome.mapErr AuthorityError.toText (m'.permitAll args.authority claims) with
    | error e => rfl
    | ok u =>
      refine ⟨h.controls, h.epoch, h.revoked, ?_, h.deposits, h.documents⟩
      rw [← huser] at h ⊢
      change Function.update m.grants args.user _ args.user = Function.update m'.grants args.user _ args.user
      rw [Function.update_self, Function.update_self, h.grants]

theorem Alike.encrypt (h : Alike user hidden m m') {file : String} (hfile : ¬ hidden (cwd.join file))
    (policy id : String) :
    Corresponds user hidden (m.encrypt cwd file policy id) (m'.encrypt cwd file policy id) := by
  unfold Monitor.encrypt
  rw [h.documents _ hfile]
  cases Outcome.ofExcept PolicyError.toText (parse policy) with
  | error e => rfl
  | ok tree =>
    cases m'.documents (cwd.join file) with
    | none => rfl
    | some plaintext =>
      refine ⟨h.controls, h.epoch, h.revoked, h.grants, ?_, h.documents⟩
      change Function.update m.deposits id (some ⟨tree, m.epoch, plaintext⟩) =
        Function.update m'.deposits id (some ⟨tree, m'.epoch, plaintext⟩)
      rw [h.deposits, h.epoch]

theorem Alike.decrypt (h : Alike user hidden m m') (id out : String) :
    Corresponds user hidden (m.decrypt cwd id user out) (m'.decrypt cwd id user out) := by
  unfold Monitor.decrypt
  rw [h.grants, h.deposits]
  cases m'.grants user with
  | none => rfl
  | some grants =>
    cases m'.deposits id with
    | none => rfl
    | some deposit =>
      rw [Outcome.okOr_some, ok_bind, ok_bind, Outcome.okOr_some, ok_bind, ok_bind]
      by_cases hopens : deposit.opens grants = true
      · rw [if_pos hopens, if_pos hopens]
        refine ⟨h.controls, h.epoch, h.revoked, h.grants, h.deposits, fun p hp => ?_⟩
        change Function.update m.documents _ _ p = Function.update m'.documents _ _ p
        by_cases hpath : p = cwd.join out
        · rw [hpath, Function.update_self, Function.update_self]
        · rw [Function.update_of_ne hpath, Function.update_of_ne hpath, h.documents p hp]
      · rw [if_neg hopens, if_neg hopens]
        rfl

/-- The other commands correspond. -/
theorem Alike.respond (h : Alike user hidden m m') {command : Command}
    (hother : command.concernsOther user = false) (hcommand : command.KeepsApart user cwd hidden)
    (id : String) : Corresponds user hidden (m.respond cwd command id) (m'.respond cwd command id) := by
  cases command with
  | setup => exact ⟨rfl, rfl, rfl, rfl, rfl, h.documents⟩
  | registerAuthority name controls =>
    exact ⟨congrArg (Function.update · name _) h.controls, h.epoch, h.revoked, h.grants, h.deposits,
      h.documents⟩
  | issue args => exact h.issue (by simpa [Command.concernsOther] using hother)
  | encrypt file policy => exact h.encrypt hcommand policy id
  | decrypt id' user' out =>
    obtain rfl : user' = user := by simpa [Command.concernsOther] using hother
    exact h.decrypt id' out
  | revokeAttribute attr =>
    refine ⟨h.controls, ?_, h.revoked, h.grants, h.deposits, h.documents⟩
    change Function.update m.epoch attr (m.epoch attr + 1) = Function.update m'.epoch attr (m'.epoch attr + 1)
    rw [h.epoch]
  | revokeUser user' =>
    refine ⟨h.controls, h.epoch, ?_, h.grants, h.deposits, h.documents⟩
    change Function.update m.revoked user' true = Function.update m'.revoked user' true
    rw [h.revoked]

/-- They reply alike. -/
theorem Alike.step (h : Alike user hidden m m') {command : Command}
    (hother : command.concernsOther user = false) (hcommand : command.KeepsApart user cwd hidden)
    (id : String) : (m.step cwd command id).1 = (m'.step cwd command id).1 ∧
      Alike user hidden (m.step cwd command id).2 (m'.step cwd command id).2 := by
  have hcorresponds := h.respond hother hcommand id
  unfold Monitor.step
  cases hm : m.respond cwd command id with
  | error e =>
    cases hm' : m'.respond cwd command id with
    | error e' =>
      rw [hm, hm'] at hcorresponds
      exact ⟨congrArg Except.error hcorresponds, h⟩
    | ok m₁' =>
      rw [hm, hm'] at hcorresponds
      cases hcorresponds
  | ok m₁ =>
    cases hm' : m'.respond cwd command id with
    | error e' =>
      rw [hm, hm'] at hcorresponds
      cases hcorresponds
    | ok m₁' =>
      rw [hm, hm'] at hcorresponds
      exact ⟨rfl, hcorresponds⟩

/-- **Purging**: without the commands that concern other users, the monitor replies the same to the
rest. -/
theorem Alike.run (h : Alike user hidden m m') {requests : List (Command × String)}
    (hrequests : ∀ r ∈ requests, r.1.KeepsApart user cwd hidden) :
    heard user (requests.map Prod.fst) (m.run cwd requests).1 =
        (m'.run cwd (requests.filter fun r => ! r.1.concernsOther user)).1 ∧
      Alike user hidden (m.run cwd requests).2
        (m'.run cwd (requests.filter fun r => ! r.1.concernsOther user)).2 := by
  induction requests generalizing m m' with
  | nil => exact ⟨rfl, h⟩
  | cons r requests ih =>
    obtain ⟨command, id⟩ := r
    have hcommand := hrequests _ List.mem_cons_self
    have hrest := fun r hr => hrequests r (List.mem_cons_of_mem _ hr)
    cases hother : command.concernsOther user with
    | true =>
      have hstep := alike_step_of_concernsOther (m := m) hother hcommand id
      obtain ⟨hheard, halike⟩ := ih (hstep.trans h) hrest
      rw [List.filter_cons_of_neg (by simp [hother])]
      refine ⟨?_, halike⟩
      rw [List.map_cons, Monitor.run, heard, if_pos hother]
      exact hheard
    | false =>
      obtain ⟨hreply, hstep⟩ := h.step hother hcommand id
      obtain ⟨hheard, halike⟩ := ih hstep hrest
      rw [List.filter_cons_of_pos (by simp [hother])]
      refine ⟨?_, halike⟩
      rw [List.map_cons, Monitor.run, heard, if_neg (by simp [hother])]
      exact congrArg₂ List.cons hreply hheard

end Monitor

/-! ## The command line -/

variable {F G₁ G₂ Gₜ : Type} [Field F] [DecidableEq F] [AddCommGroup G₁] [Module F G₁]
  [AddCommGroup G₂] [Module F G₂] [AddCommGroup Gₜ] [Module F Gₜ]
variable {C : Curve F G₁ G₂ Gₜ} {A : Cipher} {D : Codec} {cwd data : Path}

/-- The run without the commands that concern other users. -/
def purged (user : String) (calls : List (Call F)) : List (Call F) :=
  calls.filter fun call => ! call.command.concernsOther user

omit [Field F] [DecidableEq F] in
theorem requests_purged (user : String) (calls : List (Call F)) : requests D (purged user calls) =
    (requests D calls).filter fun r => ! r.1.concernsOther user := by
  unfold requests purged
  rw [List.filter_map]
  rfl

/-- **Noninterference**: after a setup, the commands that concern other users can be taken out of a run,
and all the other commands reply the same. The files are the same as well, beside those that the other
users decrypt to. -/
theorem heard_eq_outcomes (hC : C.ReadsBack) (hX : D.HexReadsBack) (hD : D.ReadsShallow) (hA : A.Correct)
    {p : ℕ} [CharP F p] (hp : 2 ^ 64 < p) {d : Disk} (hd : ∀ q, Own data q → d.has q = false)
    (setupFresh : Fresh F) (hbeta : (setup C setupFresh.scalars).1.2.beta ≠ 0) {calls : List (Call F)}
    (hcalls : ∀ call ∈ calls, call.Proper cwd data) {user : String} {hidden : Path → Prop}
    (hapart : ∀ call ∈ calls, call.command.KeepsApart user cwd hidden) :
    heard user ((⟨.setup, setupFresh⟩ :: calls).map Call.command)
        (outcomes C A D cwd data (⟨.setup, setupFresh⟩ :: calls) d) =
      outcomes C A D cwd data (⟨.setup, setupFresh⟩ :: purged user calls) d ∧
    ∀ q, ¬ Own data q → ¬ hidden q →
      (runAll C A D cwd data (⟨.setup, setupFresh⟩ :: calls) d).files.lookup q =
        (runAll C A D cwd data (⟨.setup, setupFresh⟩ :: purged user calls) d).files.lookup q := by
  have hpurged : ∀ call ∈ purged user calls, call.Proper cwd data :=
    fun call hcall => hcalls call (List.mem_of_mem_filter hcall)
  obtain ⟨hreplies, w, past, h⟩ := exists_mirrors_setup hC hX hD hA hp hd setupFresh hbeta hcalls
  obtain ⟨hreplies', w', past', h'⟩ := exists_mirrors_setup hC hX hD hA hp hd setupFresh hbeta hpurged
  have hkept : requests D (⟨.setup, setupFresh⟩ :: purged user calls) =
      (requests D (⟨.setup, setupFresh⟩ :: calls)).filter fun r => ! r.1.concernsOther user := by
    rw [← requests_purged, purged, purged, List.filter_cons_of_pos (by simp [Command.concernsOther])]
  have hrequests : ∀ r ∈ requests D (⟨.setup, setupFresh⟩ :: calls), r.1.KeepsApart user cwd hidden := by
    intro r hr
    obtain ⟨call, hcall, rfl⟩ := List.mem_map.1 hr
    rcases List.mem_cons.1 hcall with rfl | hcall
    · trivial
    · exact hapart call hcall
  obtain ⟨hheard, halike⟩ := (Monitor.Alike.refl (Monitor.start d.files.lookup)).run hrequests
  rw [← hkept] at hheard halike
  have hcommands : (requests D (⟨.setup, setupFresh⟩ :: calls)).map Prod.fst =
      (⟨.setup, setupFresh⟩ :: calls : List (Call F)).map Call.command := by
    rw [requests, List.map_map]
    rfl
  refine ⟨?_, fun q hq hhidden => ?_⟩
  · rw [hreplies, hreplies', ← hheard, hcommands]
  · rw [h.documents q hq, h'.documents q hq]
    exact halike.documents q hhidden

/-- What Bob sees of the example: Alice's key and what she opens are gone. -/
theorem heard_eq_outcomes_exampleSession :
    outcomes exponents boxes serdeJsonUnlimited exampleCwd exampleData
        (⟨.setup, exampleFresh⟩ :: purged "bob" exampleSession) exampleHome =
      heard "bob" ((⟨.setup, exampleFresh⟩ :: exampleSession : List (Call Scalar)).map Call.command)
        (outcomes exponents boxes serdeJsonUnlimited exampleCwd exampleData
          (⟨.setup, exampleFresh⟩ :: exampleSession) exampleHome) ∧
    (purged "bob" exampleSession).length = 3 ∧
    (runAll exponents boxes serdeJsonUnlimited exampleCwd exampleData
      (⟨.setup, exampleFresh⟩ :: exampleSession) exampleHome).files.lookup ⟨["home", "note"]⟩ =
    (runAll exponents boxes serdeJsonUnlimited exampleCwd exampleData
      (⟨.setup, exampleFresh⟩ :: purged "bob" exampleSession) exampleHome).files.lookup
        ⟨["home", "note"]⟩ := by
  have hnote : ¬ ((⟨["home", "note"]⟩ : Path) = ⟨["home", "copy"]⟩) := by simp
  have hapart : ∀ call ∈ exampleSession,
      call.command.KeepsApart "bob" exampleCwd fun q => q = ⟨["home", "copy"]⟩ :=
    List.forall_mem_cons.2 ⟨trivial, List.forall_mem_cons.2 ⟨trivial, List.forall_mem_cons.2
      ⟨hnote, List.forall_mem_cons.2 ⟨fun _ => rfl, List.forall_mem_singleton.2
        fun h => absurd rfl h⟩⟩⟩⟩
  obtain ⟨hreplies, hdocuments⟩ := heard_eq_outcomes (A := boxes) readsBack_exponents
    hexReadsBack_serdeJsonUnlimited readsBack_serdeJsonUnlimited.shallow correct_boxes
    (by norm_num : 2 ^ 64 < scalarModulus) has_exampleHome exampleFresh (one_ne_zero : (1 : Scalar) ≠ 0)
    proper_exampleSession hapart
  exact ⟨hreplies.symm, rfl, hdocuments _ (not_own_exampleHome "note" []) hnote⟩

end SecureABE.Cli
