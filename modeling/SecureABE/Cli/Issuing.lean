import SecureABE.Cli.Effects

/-!
# What issuing guarantees

The parts of `cmd_issue` one by one, and the key that it mints: its names are the tagged attributes of
the permitted claims and the names of the key on file, and every component is new
(`issueOutcome_eq_ok`). `exists_issueOutcome` says when it succeeds.
-/

namespace SecureABE.Cli

open Rust SecureABE.Core SecureABE.Policy SecureABE.Revocation SecureABE.Authorities

variable {F G₁ G₂ Gₜ : Type} [Field F] [DecidableEq F] [AddCommGroup G₁] [Module F G₁]
  [AddCommGroup G₂] [Module F G₂] [AddCommGroup Gₜ] [Module F Gₜ]

/-! ## Granting -/

/-- The attributes that claims resolve to. -/
def resolved (claims : List Claim) : List String := claims.flatMap Claim.resolve

omit [DecidableEq F] [AddCommGroup Gₜ] [Module F Gₜ] in
/-- The claims are granted exactly if the authority may make all of them. -/
theorem grantClaims_eq_ok {registry : AuthorityRegistry} {revocation : RevocationList}
    {authority : String} {claims : List Claim} {st st' : Granting F G₁ G₂ Gₜ} :
    grantClaims registry revocation authority claims st = .ok st' ↔
      (∀ claim ∈ claims, registry.checkPermission authority claim = .ok ()) ∧
        (resolved claims).foldl (Granting.add revocation) st = st' := by
  induction claims generalizing st with
  | nil => simp [grantClaims, resolved]
  | cons claim claims ih =>
    rw [grantClaims, bind_eq_ok, resolved, List.flatMap_cons, List.foldl_append, List.forall_mem_cons]
    constructor
    · rintro ⟨u, hcheck, h⟩
      obtain ⟨hclaims, h⟩ := ih.1 h
      exact ⟨⟨Outcome.mapErr_eq_ok.1 hcheck, hclaims⟩, h⟩
    · rintro ⟨⟨hcheck, hclaims⟩, h⟩
      exact ⟨(), Outcome.mapErr_eq_ok.2 hcheck, ih.2 ⟨hclaims, h⟩⟩

omit [DecidableEq F] [AddCommGroup Gₜ] [Module F Gₜ] in
/-- The loop over the attributes grants their tags and registers them. -/
theorem exists_registerAll_foldl_add (revocation : RevocationList) (attrs : List String)
    (st : Granting F G₁ G₂ Gₜ) :
    (attrs.foldl (Granting.add revocation) st).flatAttrs = st.flatAttrs ++ attrs.map revocation.tag ∧
      ∃ calls : List (String × Rng F), calls.map Prod.fst = attrs.map revocation.tag ∧
        (attrs.foldl (Granting.add revocation) st).pp = registerAll st.pp calls := by
  induction attrs generalizing st with
  | nil => exact ⟨by simp, [], rfl, rfl⟩
  | cons a attrs ih =>
    obtain ⟨hflat, calls, hcalls, hpp⟩ := ih (Granting.add revocation st a)
    refine ⟨?_, (revocation.tag a, st.rng) :: calls, ?_, hpp⟩
    · rw [List.foldl_cons, hflat, Granting.add, List.append_assoc, List.map_cons, List.singleton_append]
    · rw [List.map_cons, hcalls, List.map_cons]

omit [DecidableEq F] [AddCommGroup Gₜ] [Module F Gₜ] in
/-- A constant generator stays as it is. -/
theorem rng_foldl_add (revocation : RevocationList) (attrs : List String) (x : F)
    {st : Granting F G₁ G₂ Gₜ} (hst : st.rng = fun _ => x) :
    (attrs.foldl (Granting.add revocation) st).rng = fun _ => x := by
  induction attrs generalizing st with
  | nil => exact hst
  | cons a attrs ih => exact ih (registerAttribute_const st.pp (revocation.tag a) hst)

/-! ## Merging and minting -/

omit [AddCommGroup G₂] in
/-- The names that are merged. -/
theorem mem_mergeExisting {flatAttrs : List String} {existing : Except String (UserSecretKey G₂)}
    {a : String} : a ∈ mergeExisting flatAttrs existing ↔
      a ∈ flatAttrs ∨ ∃ usk, existing = .ok usk ∧ a ∈ usk.attributes := by
  have loop : ∀ (names flatAttrs : List String),
      a ∈ names.foldl (fun flatAttrs a => if a ∈ flatAttrs then flatAttrs else flatAttrs ++ [a])
        flatAttrs ↔ a ∈ flatAttrs ∨ a ∈ names := by
    intro names
    induction names with
    | nil => intro flatAttrs; simp
    | cons b names ih =>
      intro flatAttrs
      rw [List.foldl_cons, ih, List.mem_cons]
      split_ifs with hb
      · refine ⟨by tauto, ?_⟩
        rintro (ha | rfl | ha)
        · exact Or.inl ha
        · exact Or.inl hb
        · exact Or.inr ha
      · rw [List.mem_append, List.mem_singleton, or_assoc]
  cases existing with
  | error e => simp [mergeExisting]
  | ok usk =>
    rw [mergeExisting, loop, UserSecretKey.attributeNames, HashMap.mem_keys_iter]
    simp

omit [AddCommGroup G₂] in
/-- Nothing is added to names that include those on file. -/
theorem mergeExisting_of_subset {flatAttrs : List String} {usk : UserSecretKey G₂}
    (h : ∀ a ∈ usk.attributes, a ∈ flatAttrs) : mergeExisting flatAttrs (.ok usk) = flatAttrs := by
  have loop : ∀ names : List String, (∀ a ∈ names, a ∈ flatAttrs) →
      names.foldl (fun flatAttrs a => if a ∈ flatAttrs then flatAttrs else flatAttrs ++ [a]) flatAttrs =
        flatAttrs := by
    intro names hnames
    induction names with
    | nil => rfl
    | cons a names ih =>
      rw [List.foldl_cons, if_pos (hnames a (by simp))]
      exact ih fun b hb => hnames b (by simp [hb])
  refine loop usk.attributeNames fun a ha => h a ?_
  rwa [UserSecretKey.attributeNames, HashMap.mem_keys_iter] at ha

omit [AddCommGroup G₁] [Module F G₁] [AddCommGroup Gₜ] [Module F Gₜ] in
/-- What is minted: one key for all names, each of them registered. -/
theorem mintKey_eq_ok {msk : MasterSecret F} {user : String} {st : Granting F G₁ G₂ Gₜ}
    {existing : Except String (UserSecretKey G₂)} {key : Issued F G₁ G₂ Gₜ}
    (h : mintKey msk user st existing = .ok key) :
    msk.beta ≠ 0 ∧ key.pp = st.pp ∧ key.msk = msk ∧
      key.flatAttrs = mergeExisting st.flatAttrs existing ∧
      (∀ a ∈ key.flatAttrs, a ∈ st.pp.attributes) ∧
      ∃ r, Minted st.pp msk key.flatAttrs r key.usk := by
  obtain ⟨⟨usk, rng⟩, hkeygen, hret⟩ := bind_eq_ok.1 h
  obtain rfl := Except.ok.inj hret
  have hkeygen := Outcome.mapErr_eq_ok.1 hkeygen
  obtain ⟨hbeta, -, hminted⟩ := minted_of_keygen_eq_ok hkeygen
  exact ⟨hbeta, rfl, rfl, rfl, mem_of_keygen_eq_ok hkeygen, _, hminted⟩

omit [AddCommGroup G₁] [Module F G₁] [AddCommGroup Gₜ] [Module F Gₜ] in
/-- Minting succeeds on registered names. -/
theorem exists_mintKey {msk : MasterSecret F} (hbeta : msk.beta ≠ 0) (user : String)
    {st : Granting F G₁ G₂ Gₜ} {existing : Except String (UserSecretKey G₂)}
    (hnames : ∀ a ∈ mergeExisting st.flatAttrs existing, a ∈ st.pp.attributes) :
    ∃ key, mintKey msk user st existing = .ok key := by
  obtain ⟨usk, rng, hkeygen, -⟩ := keygen_spec hbeta user hnames st.rng
  exact ⟨_, by rw [mintKey, hkeygen]; rfl⟩

/-! ## Issuing -/

variable (C : Curve F G₁ G₂ Gₜ) (D : Codec) (data : Path)

/-- What a successful `cmd_issue` finds on the disk. -/
structure IssueInput (G₁ G₂ Gₜ F : Type) where
  pp : PublicParams G₁ G₂ Gₜ
  msk : MasterSecret F
  registry : AuthorityRegistry
  revocation : RevocationList
  claims : List Claim
  existing : Except String (UserSecretKey G₂)

/-- The disk holds the input, and issuing is permitted. -/
structure Admits (args : IssueArgs) (d : Disk) (input : IssueInput G₁ G₂ Gₜ F) : Prop where
  setup : setupOn C D data d = .ok (input.pp, input.msk)
  registry : registryOn D data d = .ok input.registry
  revocation : revocationOn D data d = .ok input.revocation
  notRevoked : input.revocation.isUserRevoked args.user = false
  claims : parseClaims args.flags args.texts args.numerics = .ok input.claims
  permitted : ∀ claim ∈ input.claims,
    input.registry.checkPermission args.authority claim = .ok ()
  existing : (Cmd.caught (userKeyOn C D data args.user d) : Outcome String _) = .ok input.existing

/-- The state of the loop over the claims at its end. -/
def IssueInput.granted (input : IssueInput G₁ G₂ Gₜ F) (fresh : Fresh F) : Granting F G₁ G₂ Gₜ :=
  (resolved input.claims).foldl (Granting.add input.revocation)
    { pp := input.pp, flatAttrs := [], rng := fresh.scalars }

variable {C D data}

theorem issueOutcome_eq {args : IssueArgs} {fresh : Fresh F} {d : Disk}
    {input : IssueInput G₁ G₂ Gₜ F} (h : Admits C D data args d input) :
    issueOutcome C D data args fresh d =
      mintKey input.msk args.user (input.granted fresh) input.existing := by
  have hgrant := grantClaims_eq_ok.2 ⟨h.permitted, (rfl : _ = input.granted fresh)⟩
  rw [issueOutcome, h.setup, h.registry, h.revocation]
  simp only [ok_bind]
  rw [if_neg (by simp [h.notRevoked]), h.claims, ok_bind, hgrant, ok_bind, h.existing, ok_bind]

theorem admits_of_issueOutcome {args : IssueArgs} {fresh : Fresh F} {d : Disk}
    {key : Issued F G₁ G₂ Gₜ} (h : issueOutcome C D data args fresh d = .ok key) :
    ∃ input, Admits C D data args d input := by
  obtain ⟨⟨pp, msk⟩, hsetup, h⟩ := bind_eq_ok.1 h
  obtain ⟨registry, hregistry, h⟩ := bind_eq_ok.1 h
  obtain ⟨revocation, hrevocation, h⟩ := bind_eq_ok.1 h
  split_ifs at h with hrevoked
  · cases h
  · obtain ⟨claims, hclaims, h⟩ := bind_eq_ok.1 h
    obtain ⟨st, hgrant, h⟩ := bind_eq_ok.1 h
    obtain ⟨existing, hexisting, -⟩ := bind_eq_ok.1 h
    exact ⟨⟨pp, msk, registry, revocation, claims, existing⟩, hsetup, hregistry, hrevocation,
      by simpa using hrevoked, hclaims, (grantClaims_eq_ok.1 hgrant).1, hexisting⟩

/-- The names of a minted key, from what the disk holds before. -/
def IssueInput.names (input : IssueInput G₁ G₂ Gₜ F) : List String :=
  mergeExisting ((resolved input.claims).map input.revocation.tag) input.existing

/-- **A successful issue**: it is permitted, the parameters have the new tags and keep what they had,
and one key is minted for the new tags and the names of the key on file, all of them registered. -/
theorem issueOutcome_eq_ok {args : IssueArgs} {fresh : Fresh F} {d : Disk}
    {key : Issued F G₁ G₂ Gₜ} (h : issueOutcome C D data args fresh d = .ok key) :
    ∃ input, Admits C D data args d input ∧ input.msk.beta ≠ 0 ∧ key.msk = input.msk ∧
      key.flatAttrs = input.names ∧ (∀ a ∈ input.names, a ∈ key.pp.attributes) ∧
      (∃ calls : List (String × Rng F),
        calls.map Prod.fst = (resolved input.claims).map input.revocation.tag ∧
          key.pp = registerAll input.pp calls) ∧
      ∃ r, Minted key.pp key.msk input.names r key.usk := by
  obtain ⟨input, hadmits⟩ := admits_of_issueOutcome h
  rw [issueOutcome_eq hadmits] at h
  obtain ⟨hbeta, hpp, hmsk, hflat, hmem, r, hminted⟩ := mintKey_eq_ok h
  obtain ⟨hgranted, calls, hcalls, hreg⟩ := exists_registerAll_foldl_add input.revocation
    (resolved input.claims) { pp := input.pp, flatAttrs := [], rng := fresh.scalars }
  have hnames : key.flatAttrs = input.names := by
    rw [hflat, IssueInput.names, IssueInput.granted, hgranted, List.nil_append]
  rw [hnames] at hmem hminted
  rw [← hpp] at hmem hminted
  rw [← hmsk] at hminted
  exact ⟨input, hadmits, hbeta, hmsk, hnames, hmem, ⟨calls, hcalls, hpp.trans hreg⟩, r, hminted⟩

/-- With a constant generator, the key is generated with the constant. -/
theorem exists_keygen_of_issueOutcome_eq_ok {args : IssueArgs} {fresh : Fresh F} {d : Disk}
    {input : IssueInput G₁ G₂ Gₜ F} (h : Admits C D data args d input) {key : Issued F G₁ G₂ Gₜ}
    (hissued : issueOutcome C D data args fresh d = .ok key) {x : F}
    (hfresh : fresh.scalars = fun _ => x) :
    ∃ rng, keygen key.pp input.msk args.user input.names (fun _ => x) = .ok (key.usk, rng) := by
  rw [issueOutcome_eq h] at hissued
  obtain ⟨⟨usk, rng⟩, hkeygen, hret⟩ := bind_eq_ok.1 hissued
  obtain rfl := Except.ok.inj hret
  have hgranted := (exists_registerAll_foldl_add input.revocation (resolved input.claims)
    { pp := input.pp, flatAttrs := [], rng := fresh.scalars }).1
  have hnames : mergeExisting (input.granted fresh).flatAttrs input.existing = input.names := by
    unfold IssueInput.names IssueInput.granted
    rw [hgranted, List.nil_append]
  have hrng : (input.granted fresh).rng = fun _ => x :=
    rng_foldl_add input.revocation (resolved input.claims) x hfresh
  rw [hnames, hrng] at hkeygen
  exact ⟨rng, Outcome.mapErr_eq_ok.1 hkeygen⟩

/-- **Issuing succeeds** when it is permitted and the names on file are registered or issued again. -/
theorem exists_issueOutcome {args : IssueArgs} (fresh : Fresh F) {d : Disk}
    {input : IssueInput G₁ G₂ Gₜ F} (h : Admits C D data args d input) (hbeta : input.msk.beta ≠ 0)
    (hexisting : ∀ usk, input.existing = .ok usk → ∀ a ∈ usk.attributes,
      a ∈ (resolved input.claims).map input.revocation.tag ∨ a ∈ input.pp.attributes) :
    ∃ key, issueOutcome C D data args fresh d = .ok key := by
  rw [issueOutcome_eq h]
  obtain ⟨hgranted, calls, hcalls, hreg⟩ := exists_registerAll_foldl_add input.revocation
    (resolved input.claims) { pp := input.pp, flatAttrs := [], rng := fresh.scalars }
  apply exists_mintKey hbeta args.user
  intro a ha
  rw [IssueInput.granted, hreg, mem_registerAll, hcalls]
  rcases mem_mergeExisting.1 ha with ha | ⟨usk, husk, ha⟩
  · left
    rwa [IssueInput.granted, hgranted, List.nil_append] at ha
  · exact hexisting usk husk a ha

end SecureABE.Cli
