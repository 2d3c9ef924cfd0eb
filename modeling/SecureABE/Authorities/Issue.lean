import SecureABE.Authorities.Registry
import SecureABE.Core.Operations

/-!
# Issuing, as a library function

`issue` of `authorities/src/lib.rs`, which the command line does not call: it has no tags, no users
that are revoked and no key on file. The public parameters are passed by mutable reference; what they
are at the end is part of the result, whether a key is issued or not.
-/

namespace SecureABE.Authorities

open Rust SecureABE.Core SecureABE.Audit

variable {F G₁ G₂ Gₜ : Type} [Field F] [DecidableEq F] [AddCommGroup G₁] [Module F G₁]
  [AddCommGroup G₂] [Module F G₂] [AddCommGroup Gₜ] [Module F Gₜ]

variable (F G₁ G₂ Gₜ) in
/-- The parameters, the attributes and the generator in the loop over the claims. -/
structure IssueState where
  pp : PublicParams G₁ G₂ Gₜ
  flatAttrs : List String
  rng : Rng F

/-- One attribute of a claim. -/
def IssueState.add (st : IssueState F G₁ G₂ Gₜ) (a : String) : IssueState F G₁ G₂ Gₜ :=
  let (pp, rng) := registerAttribute st.pp a st.rng
  { pp, flatAttrs := st.flatAttrs ++ [a], rng }

/-- The loop over the claims, and the state at its end or at the claim that is refused. -/
def issueClaims (registry : AuthorityRegistry) (authority : String) :
    List Claim → IssueState F G₁ G₂ Gₜ → Outcome AuthorityError Unit × IssueState F G₁ G₂ Gₜ
  | [], st => (.ok (), st)
  | claim :: claims, st =>
    match registry.checkPermission authority claim with
    | .ok () => issueClaims registry authority claims (claim.resolve.foldl IssueState.add st)
    | .error e => (.error e, st)

/-- Issues attribute claims for `subject`. -/
def issue (D : Codec) (pp : PublicParams G₁ G₂ Gₜ) (msk : MasterSecret F) (registry : AuthorityRegistry)
    (authority subject : String) (claims : List Claim) (audit : AuditLog) (rng : Rng F)
    (timestampUnix : UInt64) :
    Prog FileOp.Reply (Outcome AuthorityError (UserSecretKey G₂) × PublicParams G₁ G₂ Gₜ) :=
  let (checked, st) := issueClaims registry authority claims { pp, flatAttrs := [], rng }
  let key : FileCmd AuthorityError (UserSecretKey G₂) := do
    Cmd.ofOutcome checked
    let (usk, _) ← Cmd.ofOutcome (Outcome.mapErr .abe (keygen st.pp msk subject st.flatAttrs st.rng))
    Cmd.mapErr .audit (audit.record D
      { timestampUnix, actor := authority, action := "ISSUE_KEY", subject,
        detail := "attributes=" ++ ",".intercalate st.flatAttrs })
    pure usk
  Prog.bind key fun usk => .pure (usk, st.pp)

omit [DecidableEq F] [AddCommGroup Gₜ] [Module F Gₜ] in
/-- The loop goes through exactly if the authority may make all claims. -/
theorem issueClaims_eq_ok {registry : AuthorityRegistry} {authority : String} {claims : List Claim}
    {st : IssueState F G₁ G₂ Gₜ} : (issueClaims registry authority claims st).1 = .ok () ↔
      ∀ claim ∈ claims, registry.checkPermission authority claim = .ok () := by
  induction claims generalizing st with
  | nil => simp [issueClaims]
  | cons claim claims ih =>
    rw [issueClaims, List.forall_mem_cons]
    cases registry.checkPermission authority claim with
    | ok u => simp [ih]
    | error e => simp

/-- The claims before the first one that is refused. -/
def permittedPrefix (registry : AuthorityRegistry) (authority : String) (claims : List Claim) :
    List Claim :=
  claims.takeWhile fun claim => registry.checkPermission authority claim = .ok ()

omit [DecidableEq F] [AddCommGroup Gₜ] [Module F Gₜ] in
/-- Whether it goes through or not, the loop registers the attributes of these. -/
theorem exists_registerAll_issueClaims (registry : AuthorityRegistry) (authority : String)
    (claims : List Claim) (st : IssueState F G₁ G₂ Gₜ) : ∃ calls : List (String × Rng F),
      calls.map Prod.fst = (permittedPrefix registry authority claims).flatMap Claim.resolve ∧
        (issueClaims registry authority claims st).2.pp = registerAll st.pp calls := by
  have hadd : ∀ (attrs : List String) (st : IssueState F G₁ G₂ Gₜ), ∃ calls : List (String × Rng F),
      calls.map Prod.fst = attrs ∧ (attrs.foldl IssueState.add st).pp = registerAll st.pp calls := by
    intro attrs
    induction attrs with
    | nil => exact fun st => ⟨[], rfl, rfl⟩
    | cons a attrs ih =>
      intro st
      obtain ⟨calls, hcalls, hpp⟩ := ih (st.add a)
      exact ⟨(a, st.rng) :: calls, by rw [List.map_cons, hcalls], hpp⟩
  induction claims generalizing st with
  | nil => exact ⟨[], rfl, rfl⟩
  | cons claim claims ih =>
    unfold issueClaims permittedPrefix
    rw [List.takeWhile_cons]
    cases hcheck : registry.checkPermission authority claim with
    | error e => exact ⟨[], rfl, rfl⟩
    | ok u =>
      obtain ⟨calls, hcalls, hpp⟩ := hadd claim.resolve st
      obtain ⟨calls', hcalls', hpp'⟩ := ih (claim.resolve.foldl IssueState.add st)
      refine ⟨calls ++ calls', ?_, ?_⟩
      · rw [List.map_append, hcalls, hcalls']
        rfl
      · rw [hpp', hpp, registerAll, registerAll, registerAll, List.foldl_append]

omit [AddCommGroup Gₜ] [Module F Gₜ] in
/-- The parameters that `issue` leaves are those of the loop, however it ends. -/
theorem pp_of_issue {D : Codec} {pp pp' : PublicParams G₁ G₂ Gₜ} {msk : MasterSecret F}
    {registry : AuthorityRegistry} {authority subject : String} {claims : List Claim} {audit : AuditLog}
    {rng : Rng F} {timestampUnix : UInt64} {es : List (Event FileOp.Reply)}
    {outcome : Outcome AuthorityError (UserSecretKey G₂)}
    (h : (issue D pp msk registry authority subject claims audit rng timestampUnix).Performs es
      (outcome, pp')) :
    pp' = (issueClaims registry authority claims { pp, flatAttrs := [], rng }).2.pp := by
  unfold issue at h
  obtain ⟨es₁, usk, es₂, -, -, hret⟩ := Prog.performs_bind.1 h
  exact congrArg Prod.snd (Prog.performs_pure.1 hret).2

omit [AddCommGroup Gₜ] [Module F Gₜ] in
/-- A key is issued only if the authority may make all claims, whatever the disk replies. -/
theorem permitted_of_issue {D : Codec} {pp pp' : PublicParams G₁ G₂ Gₜ} {msk : MasterSecret F}
    {registry : AuthorityRegistry} {authority subject : String} {claims : List Claim} {audit : AuditLog}
    {rng : Rng F} {timestampUnix : UInt64} {es : List (Event FileOp.Reply)} {usk : UserSecretKey G₂}
    (h : (issue D pp msk registry authority subject claims audit rng timestampUnix).Performs es
      (.ok usk, pp')) : ∀ claim ∈ claims, registry.checkPermission authority claim = .ok () := by
  unfold issue at h
  obtain ⟨es₁, outcome, es₂, -, hkey, hret⟩ := Prog.performs_bind.1 h
  obtain ⟨-, hret⟩ := Prog.performs_pure.1 hret
  obtain ⟨rfl, -⟩ := Prod.mk.inj hret
  obtain ⟨es₃, checked, es₄, -, hchecked, hrest⟩ := Prog.performs_bind.1 hkey
  obtain ⟨-, rfl⟩ := Prog.performs_pure.1 hchecked
  cases hloop : (issueClaims registry authority claims { pp, flatAttrs := [], rng }).1 with
  | ok u => exact issueClaims_eq_ok.1 hloop
  | error e =>
    rw [hloop] at hrest
    obtain ⟨-, hout⟩ := Prog.performs_pure.1 hrest
    cases hout

omit [DecidableEq F] [AddCommGroup Gₜ] [Module F Gₜ] in
/-- The loop registers the attributes that it collects. -/
theorem registered_issueClaims (registry : AuthorityRegistry) (authority : String) (claims : List Claim)
    {st : IssueState F G₁ G₂ Gₜ} (h : ∀ a ∈ st.flatAttrs, a ∈ st.pp.attributes) :
    ∀ a ∈ (issueClaims registry authority claims st).2.flatAttrs,
      a ∈ (issueClaims registry authority claims st).2.pp.attributes := by
  have hadd : ∀ (attrs : List String) (st : IssueState F G₁ G₂ Gₜ),
      (∀ a ∈ st.flatAttrs, a ∈ st.pp.attributes) →
        ∀ a ∈ (attrs.foldl IssueState.add st).flatAttrs,
          a ∈ (attrs.foldl IssueState.add st).pp.attributes := by
    intro attrs
    induction attrs with
    | nil => exact fun _ h => h
    | cons b attrs ih =>
      intro st h
      refine ih (st.add b) fun a ha => (mem_registerAttribute st.pp b st.rng a).2 ?_
      rcases List.mem_append.1 ha with ha | ha
      · exact Or.inr (h a ha)
      · exact Or.inl (List.mem_singleton.1 ha)
  induction claims generalizing st with
  | nil => exact h
  | cons claim claims ih =>
    rw [issueClaims]
    cases registry.checkPermission authority claim with
    | ok u => exact ih (hadd claim.resolve st h)
    | error e => exact h

omit [AddCommGroup Gₜ] [Module F Gₜ] in
/-- **Issuing succeeds** for an authority that may make all claims, on a disk without faults. -/
theorem exists_run_issue (D : Codec) (pp : PublicParams G₁ G₂ Gₜ) {msk : MasterSecret F}
    (hbeta : msk.beta ≠ 0) {registry : AuthorityRegistry} {authority : String} (subject : String)
    {claims : List Claim} (h : ∀ claim ∈ claims, registry.checkPermission authority claim = .ok ())
    (audit : AuditLog) (rng : Rng F) (timestampUnix : UInt64) (d : Disk) : ∃ usk pp' d',
      (issue D pp msk registry authority subject claims audit rng timestampUnix).run FileOp.handle d =
        ((.ok usk, pp'), d') := by
  let start : IssueState F G₁ G₂ Gₜ := { pp, flatAttrs := [], rng }
  have hchecked : (issueClaims registry authority claims start).1 = .ok () := issueClaims_eq_ok.2 h
  have hregistered := registered_issueClaims registry authority claims
    (fun a ha => absurd ha List.not_mem_nil : ∀ a ∈ start.flatAttrs, a ∈ start.pp.attributes)
  cases hloop : issueClaims registry authority claims start with
  | mk checked st =>
    rw [hloop] at hchecked hregistered
    obtain rfl : checked = .ok () := hchecked
    obtain ⟨usk, rng', hkeygen, -⟩ := keygen_spec hbeta subject hregistered st.rng
    refine ⟨usk, st.pp, d.append audit.path (AuditLog.line D
      ⟨timestampUnix, authority, "ISSUE_KEY", subject, "attributes=" ++ ",".intercalate st.flatAttrs⟩), ?_⟩
    rw [issue, hloop]
    apply (Prog.run_bind _ _ _ d).trans
    change Prog.run FileOp.handle (Prog.pure ((Fs.exec _ d).1, st.pp)) (Fs.exec _ d).2 = _
    simp only [Fs.exec_bind, Fs.exec_ofOutcome, Fs.exec_mapErr, Fs.exec_pure, hkeygen, Outcome.mapErr_ok,
      Cmd.andThen_ok, AuditLog.exec_record, Prog.run]

end SecureABE.Authorities
