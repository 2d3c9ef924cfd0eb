import SecureABE.Cli.Claims
import SecureABE.Cli.Commands

/-!
# The reference monitor

What the command line is for, without cryptography, encodings and files of its own: authorities and what
they control, epochs of attributes, revoked users, what each user was granted at which epoch, and
documents deposited under a policy with the epochs of the time. `Monitor.step` is what a command asks of
it, and its reply.
-/

namespace SecureABE.Cli

open Rust SecureABE.Core SecureABE.Policy SecureABE.Authorities SecureABE.Envelope SecureABE.Storage

/-- A document under its policy. -/
structure Deposit where
  policy : AccessTree
  /-- The epochs of the attributes when it was deposited. -/
  epoch : String → UInt64
  plaintext : Bytes

structure Monitor where
  controls : String → Option (List String)
  epoch : String → UInt64
  revoked : String → Bool
  /-- The attributes granted to a user, each with its epoch of the time. -/
  grants : String → Option (List (String × UInt64))
  deposits : String → Option Deposit
  /-- The files of the users. -/
  documents : Path → Option Bytes

/-- The granted attributes whose epochs are the given ones. -/
def currentOf (grants : List (String × UInt64)) (epoch : String → UInt64) : List String :=
  (grants.filter fun g => epoch g.1 = g.2).map Prod.fst

theorem mem_currentOf {grants : List (String × UInt64)} {epoch : String → UInt64} {a : String} :
    a ∈ currentOf grants epoch ↔ (a, epoch a) ∈ grants := by
  simp only [currentOf, List.mem_map, List.mem_filter, decide_eq_true_eq]
  constructor
  · rintro ⟨⟨b, e⟩, ⟨hmem, hepoch⟩, rfl⟩
    rwa [hepoch]
  · intro hmem
    exact ⟨(a, epoch a), ⟨hmem, rfl⟩, rfl⟩

/-- The grants open the deposit. -/
def Deposit.opens (deposit : Deposit) (grants : List (String × UInt64)) : Bool :=
  deposit.policy.isSatisfiedBy (currentOf grants deposit.epoch)

namespace Monitor

/-- The monitor of an empty deployment. -/
def start (documents : Path → Option Bytes) : Monitor where
  controls := fun _ => none
  epoch := fun _ => 0
  revoked := fun _ => false
  grants := fun _ => none
  deposits := fun _ => none
  documents

variable (m : Monitor)

/-- An authority asks to issue a claim. -/
def permit (authority : String) (claim : Claim) : Outcome AuthorityError Unit :=
  match m.controls authority with
  | none => Outcome.err (.unknownAuthority authority)
  | some controls =>
    if controls = [] ∨ claim.keyPrefix ∈ controls then .ok ()
    else Outcome.err (.notPermitted authority claim.keyPrefix)

/-- The first claim that is refused. -/
def permitAll (authority : String) : List Claim → Outcome AuthorityError Unit
  | [] => .ok ()
  | claim :: claims => do
    m.permit authority claim
    permitAll authority claims

/-- Further attributes are granted to a user. -/
def grant (user : String) (new : List (String × UInt64)) : Monitor :=
  { m with grants := Function.update m.grants user (some ((m.grants user).getD [] ++ new)) }

def issue (args : IssueArgs) : Outcome String Monitor := do
  if m.revoked args.user = true then Outcome.err (revokedMessage args.user)
  else do
    let claims ← parseClaims args.flags args.texts args.numerics
    Outcome.mapErr AuthorityError.toText (m.permitAll args.authority claims)
    .ok (m.grant args.user ((claims.flatMap Claim.resolve).map fun a => (a, m.epoch a)))

/-- A document is deposited under a policy, at the epochs of now. -/
def deposit (id : String) (policy : AccessTree) (plaintext : Bytes) : Monitor :=
  { m with deposits := Function.update m.deposits id (some ⟨policy, m.epoch, plaintext⟩) }

def encrypt (cwd : Path) (file policy id : String) : Outcome String Monitor := do
  let tree ← Outcome.ofExcept PolicyError.toText (parse policy)
  let plaintext ← Outcome.okOr ("reading " ++ file) (m.documents (cwd.join file))
  .ok (m.deposit id tree plaintext)

/-- A file of the users is written. -/
def write (p : Path) (plaintext : Bytes) : Monitor :=
  { m with documents := Function.update m.documents p (some plaintext) }

def decrypt (cwd : Path) (id user out : String) : Outcome String Monitor := do
  let grants ← Outcome.okOr ("no key on file for user '" ++ user ++ "'; run `issue` first") (m.grants user)
  let deposit ← Outcome.okOr (StorageError.notFound id).toText (m.deposits id)
  if deposit.opens grants = true then .ok (m.write (cwd.join out) deposit.plaintext)
  else Outcome.err (EnvelopeError.keyWrap .policyNotSatisfied).toText

variable {m} {m' : Monitor} {cwd : Path}

/-- **A key is granted** to a user who is not revoked, for claims that are all permitted. -/
theorem issue_eq_ok {args : IssueArgs} : m.issue args = .ok m' ↔ m.revoked args.user = false ∧
    ∃ claims, parseClaims args.flags args.texts args.numerics = .ok claims ∧
      m.permitAll args.authority claims = .ok () ∧
      m' = m.grant args.user ((claims.flatMap Claim.resolve).map fun a => (a, m.epoch a)) := by
  unfold issue
  by_cases hrevoked : m.revoked args.user = true
  · rw [if_pos hrevoked]
    exact iff_of_false (fun h => by cases h) fun h => by simp [h.1] at hrevoked
  · rw [if_neg hrevoked]
    constructor
    · intro h
      obtain ⟨claims, hclaims, h⟩ := bind_eq_ok.1 h
      obtain ⟨u, hpermit, h⟩ := bind_eq_ok.1 h
      exact ⟨by simpa using hrevoked, claims, hclaims, Outcome.mapErr_eq_ok.1 hpermit,
        (Except.ok.inj h).symm⟩
    · rintro ⟨-, claims, hclaims, hpermit, rfl⟩
      rw [hclaims, ok_bind, hpermit]
      rfl

/-- **A document is opened** for a user whose grants satisfy its policy at its epochs. -/
theorem decrypt_eq_ok {id user out : String} : m.decrypt cwd id user out = .ok m' ↔
    ∃ grants deposit, m.grants user = some grants ∧ m.deposits id = some deposit ∧
      deposit.opens grants = true ∧ m' = m.write (cwd.join out) deposit.plaintext := by
  unfold decrypt
  constructor
  · intro h
    obtain ⟨grants, hgrants, h⟩ := bind_eq_ok.1 h
    obtain ⟨deposit, hdeposit, h⟩ := bind_eq_ok.1 h
    by_cases hopens : deposit.opens grants = true
    · rw [if_pos hopens] at h
      exact ⟨grants, deposit, Outcome.okOr_eq_ok.1 hgrants, Outcome.okOr_eq_ok.1 hdeposit, hopens,
        (Except.ok.inj h).symm⟩
    · rw [if_neg hopens] at h
      cases h
  · rintro ⟨grants, deposit, hgrants, hdeposit, hopens, rfl⟩
    rw [hgrants, hdeposit, Outcome.okOr_some, ok_bind, Outcome.okOr_some, ok_bind, if_pos hopens]

variable (m)

/-- What a command makes of the monitor; `id` is the one drawn for a deposit. -/
def respond (cwd : Path) (command : Command) (id : String) : Outcome String Monitor :=
  match command with
  | .setup => .ok (start m.documents)
  | .registerAuthority name controls =>
    .ok { m with controls := Function.update m.controls name (some (splitControls controls)) }
  | .issue args => m.issue args
  | .encrypt file policy => m.encrypt cwd file policy id
  | .decrypt id user out => m.decrypt cwd id user out
  | .revokeAttribute attr => .ok { m with epoch := Function.update m.epoch attr (m.epoch attr + 1) }
  | .revokeUser user => .ok { m with revoked := Function.update m.revoked user true }

/-- The reply to a command, and the monitor after it: a refused command changes nothing. -/
def step (cwd : Path) (command : Command) (id : String) : Outcome String Unit × Monitor :=
  match m.respond cwd command id with
  | .ok m' => (.ok (), m')
  | .error e => (.error e, m)

variable {m}

theorem step_of_ok {command : Command} {id : String} (h : m.respond cwd command id = .ok m') :
    m.step cwd command id = (.ok (), m') := by
  rw [step, h]

theorem step_of_error {command : Command} {id : String} {e : Failure String}
    (h : m.respond cwd command id = .error e) : m.step cwd command id = (.error e, m) := by
  rw [step, h]

/-- The replies to a list of commands, and the monitor after them. -/
def run (cwd : Path) : List (Command × String) → Monitor → List (Outcome String Unit) × Monitor
  | [], m => ([], m)
  | (command, id) :: commands, m =>
    let (reply, m') := m.step cwd command id
    let (replies, m'') := run cwd commands m'
    (reply :: replies, m'')

end Monitor

end SecureABE.Cli
