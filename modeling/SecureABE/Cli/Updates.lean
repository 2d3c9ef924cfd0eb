import SecureABE.Cli.Accesses
import SecureABE.Cli.Crashes

/-!
# Commands at the same time

Several commands work on a deployment, and their accesses alternate (`Together`). Nothing keeps them from
loading a file, changing what they have loaded and saving it over what another command has saved since.
If that does not happen to the parameters, the revocation list or a key file, the deployment in the end
has what all of them have done (`reflects_of_noneLost`); otherwise a revocation can be lost
(`not_reflects_exampleTrace`).

Each file has its own induction along the trace: the parameters only grow (`stored_along`), so keys and
packages stay coherent with them (`coherent_along`), a key file only grows (`holdsKey_along`), and the
revocation list has one revocation more with each save (`revoked_along`).
-/

namespace SecureABE.Cli

open Rust SecureABE.Core SecureABE.Policy SecureABE.Revocation SecureABE.Authorities SecureABE.Audit
  SecureABE.Envelope SecureABE.Storage

variable {F G₁ G₂ Gₜ : Type} [Field F] [DecidableEq F] [AddCommGroup G₁] [Module F G₁]
  [AddCommGroup G₂] [Module F G₂] [AddCommGroup Gₜ] [Module F Gₜ] {ι : Type} [DecidableEq ι]
variable (C : Curve F G₁ G₂ Gₜ) (A : Cipher) (D : Codec) (cwd data : Path)

/-- The trace is an interleaving of the accesses of the commands, all of which succeed. -/
abbrev Together (calls : ι → Call F) (d : Disk) (tr : List (ι × Event FileOp.Reply)) (d' : Disk) : Prop :=
  Interleaves FileOp.handle (fun i => (calls i).command.run C A D cwd data (calls i).fresh) d tr
    (fun _ => .ok ()) d'

/-- **The interleavings are the runs of the schedules** in which all commands succeed. -/
theorem exists_together_iff {calls : ι → Call F} {d d' : Disk} :
    (∃ tr, Together C A D cwd data calls d tr d') ↔ ∃ sched, Prog.interleave FileOp.handle sched
      (fun i => (calls i).command.run C A D cwd data (calls i).fresh) d = (fun _ => .pure (.ok ()), d') :=
  exists_interleaves_iff

/-! ## The claims -/

/-- The files that are loaded, changed and saved. -/
def Shared (p : Path) : Prop :=
  p = setupPath data ∨ p = revocationPath data ∨ ∃ user, p = keyFile data user

/-- No command saves a shared file between the last look of another at it and its save. -/
def NoneLost (tr : List (ι × Event FileOp.Reply)) : Prop :=
  ∀ p, Shared data p → Isolated FileOp.LooksAt FileOp.Writes p tr

/-- The attributes that are granted by a command with these events. -/
def Granted (args : IssueArgs) (fresh : Fresh F) (es : List (Event FileOp.Reply)) (a : String) : Prop :=
  ∃ es₁ es₂ key, es = es₁ ++ es₂ ∧
    Prog.Performs (prepareIssue C D data args fresh) es₁ (.ok key) ∧ a ∈ key.flatAttrs

/-- The attribute that a command revokes. -/
def Command.attribute? : Command → Option String
  | .revokeAttribute attr => some attr
  | _ => none

/-- The number of commands that revoke an attribute. -/
def revocations [Fintype ι] (calls : ι → Call F) (a : String) : ℕ :=
  (Finset.univ.filter fun i => (calls i).command.attribute? = some a).card

/-- The disk has what all commands have done, since the revocation list was `rl`. -/
structure Reflects [Fintype ι] (calls : ι → Call F) (rl : RevocationList)
    (tr : List (ι × Event FileOp.Reply)) (d : Disk) : Prop where
  committed : Committed C D data d
  granted : ∀ i args a, (calls i).command = .issue args →
    Granted C D data args (calls i).fresh (own i tr) a →
      ∃ usk, userKeyOn C D data args.user d = .ok usk ∧ a ∈ usk.attributes
  revoked : ∃ rl', revocationOn D data d = .ok rl' ∧
    (∀ a, rl'.currentEpoch a = rl.currentEpoch a + UInt64.ofNat (revocations calls a)) ∧
    ∀ i user, (calls i).command = .revokeUser user → rl'.isUserRevoked user = true

/-! ## What the accesses are -/

variable {C A D cwd data}

/-- All commands make allowed accesses only, one after another. -/
theorem Together.allowed (hX : D.HexReadsBack) {calls : ι → Call F} {d d' : Disk}
    {tr : List (ι × Event FileOp.Reply)} (h : Together C A D cwd data calls d tr d')
    (hadds : ∀ i, (calls i).command.Adds data) {t t' : List (ι × Event FileOp.Reply)} {i : ι}
    {e : Event FileOp.Reply} (htr : tr = t ++ (i, e) :: t') :
    Allowed C A D data (calls i).command (own i t) e.op := by
  have hobeys := obeys_run C A D cwd data hX (hadds i) (calls i).fresh
  apply (Prog.Obeys.of_performs hobeys (h.performs i)).1 (own i t) e (own i t')
  rw [htr, own_append, own_cons_self]

/-! ## What a disk holds in a file -/

omit [DecidableEq F] in
theorem setupOn_congr {d d' : Disk}
    (h : d.files.lookup (setupPath data) = d'.files.lookup (setupPath data)) :
    setupOn C D data d = setupOn C D data d' := by
  unfold setupOn
  rw [Disk.read_congr h]

omit [DecidableEq F] in
theorem userKeyOn_congr {user : String} {d d' : Disk}
    (h : d.files.lookup (keyFile data user) = d'.files.lookup (keyFile data user)) :
    (userKeyOn C D data user d : Outcome String (UserSecretKey G₂)) = userKeyOn C D data user d' := by
  unfold userKeyOn
  rw [Disk.read_congr h]

theorem revocationOn_congr {d d' : Disk}
    (h : d.files.lookup (revocationPath data) = d'.files.lookup (revocationPath data))
    (hdir : revocationPath data ∈ d.dirs ↔ revocationPath data ∈ d'.dirs) :
    revocationOn D data d = revocationOn D data d' := by
  have hhas : d.has (revocationPath data) = d'.has (revocationPath data) := by
    have hmem : revocationPath data ∈ d.files ↔ revocationPath data ∈ d'.files := by
      rw [← AList.lookup_isSome, h, AList.lookup_isSome]
    simp only [Disk.has, hmem, hdir]
  unfold revocationOn revocationStateOn
  rw [Disk.read_congr h, hhas]

omit [DecidableEq F] in
/-- An allowed access that does not save the revocation list leaves it alone. -/
theorem Allowed.revocationOn_eq {command : Command} {past : List (Event FileOp.Reply)} {op : FileOp}
    (h : Allowed C A D data command past op) (hop : ¬ op.Writes (revocationPath data)) (d : Disk) :
    revocationOn D data (op.handle d).2 = revocationOn D data d := by
  apply revocationOn_congr (FileOp.lookup_handle hop d)
  cases h with
  | read p | exist p | openLog | log b | save h => rfl
  | @createDirAll cs hcs =>
    change _ ∈ d.dirs ++ _ ↔ _
    rw [List.mem_append, List.mem_filter, revocationPath_eq]
    refine or_iff_left fun hmem => hcs ?_
    exact Path.under_mem_ancestors.1 hmem.1

/-! ## Along a trace -/

variable (C D data) in
/-- The disk holds the parameters. -/
structure Stored (pp : PublicParams G₁ G₂ Gₜ) (msk : MasterSecret F) (d : Disk) : Prop where
  setup : d.files.lookup (setupPath data) = some (setupBytes C D pp msk)
  deployed : Deployed C msk pp

omit [DecidableEq F] in
theorem Stored.eq (hC : C.ReadsBack) (hX : D.HexReadsBack) (hD : D.ReadsShallow)
    {pp pp' : PublicParams G₁ G₂ Gₜ} {msk msk' : MasterSecret F} {d : Disk} (h : Stored C D data pp msk d)
    (hon : setupOn C D data d = .ok (pp', msk')) : pp' = pp ∧ msk' = msk := by
  rw [setupOn_of_lookup hC hX hD h.deployed.eq h.setup] at hon
  obtain ⟨rfl, rfl⟩ := Prod.mk.inj (Except.ok.inj hon)
  exact ⟨rfl, rfl⟩

omit [DecidableEq F] in
theorem Coherent.stored {pp : PublicParams G₁ G₂ Gₜ} {msk : MasterSecret F} {d : Disk}
    (h : Coherent C A D data pp msk d) : Stored C D data pp msk d where
  setup := by
    rw [setupPath_eq]
    exact h.setup
  deployed := h.deployed

section Raised

variable [Fintype ι] {calls : ι → Call F} {t : List (ι × Event FileOp.Reply)} {i : ι}
  {e : Event FileOp.Reply} {a : String}

variable (data calls) in
/-- The number of commands that have saved the revocation of an attribute. -/
def raised (t : List (ι × Event FileOp.Reply)) (a : String) : ℕ :=
  (Finset.univ.filter fun i => (calls i).command.attribute? = some a ∧
    SavedRevocation data (own i t)).card

omit [Fintype ι] in
theorem savedRevocation_own_concat {j : ι} : SavedRevocation data (own j (t ++ [(i, e)])) ↔
    SavedRevocation data (own j t) ∨ j = i ∧ e.op.Writes (revocationPath data) := by
  rw [own_append]
  by_cases hj : j = i
  · subst hj
    simp [own_cons_self, savedRevocation_concat]
  · simp [own_cons_ne (Ne.symm hj), hj]

omit [Field F] [DecidableEq F]

/-- Other accesses revoke nothing. -/
theorem raised_concat_of_not (h : e.op.Writes (revocationPath data) →
    (calls i).command.attribute? ≠ some a) : raised data calls (t ++ [(i, e)]) a = raised data calls t a := by
  unfold raised
  refine congrArg Finset.card (Finset.filter_congr fun j _ => ?_)
  rw [savedRevocation_own_concat]
  refine and_congr_right fun hj => or_iff_left ?_
  rintro ⟨rfl, hop⟩
  exact h hop hj

/-- The first save of a revocation counts. -/
theorem raised_concat (h : e.op.Writes (revocationPath data)) (hi : (calls i).command.attribute? = some a)
    (hfirst : ¬ SavedRevocation data (own i t)) :
    raised data calls (t ++ [(i, e)]) a = raised data calls t a + 1 := by
  unfold raised
  rw [← Finset.card_insert_of_notMem (a := i) (by simp [hfirst])]
  congr 1
  ext j
  simp only [Finset.mem_filter, Finset.mem_univ, true_and, Finset.mem_insert, savedRevocation_own_concat]
  constructor
  · rintro ⟨hj, hsaved | ⟨rfl, -⟩⟩
    · exact Or.inr ⟨hj, hsaved⟩
    · exact Or.inl rfl
  · rintro (rfl | ⟨hj, hsaved⟩)
    · exact ⟨hi, Or.inr ⟨rfl, h⟩⟩
    · exact ⟨hj, Or.inl hsaved⟩

end Raised

section Along

variable {calls : ι → Call F} {d d' : Disk} {tr : List (ι × Event FileOp.Reply)}
  (hrun : Together C A D cwd data calls d tr d') (hadds : ∀ i, (calls i).command.Adds data)
  (hlost : NoneLost data tr)
variable {t t' t'' : List (ι × Event FileOp.Reply)} {i : ι} {e : Event FileOp.Reply} {s s' : Disk}
include hlost

/-- **What a command knows** of a shared file holds when it saves the file. -/
theorem holds_of_knows {p : Path} (hp : Shared data p) {φ : Disk → Prop} (htr : tr = t ++ (i, e) :: t')
    (ht : Explains FileOp.handle d (t.map Prod.snd) s) (hop : e.op.Writes p)
    (hframe : ∀ x ∈ t, ¬ x.2.op.Writes p → ∀ s, φ s → φ (x.2.op.handle s).2)
    (h : Fs.Knows p φ (own i t)) : φ s := by
  have hiso := hlost p hp
  rw [htr] at hiso
  exact Knows.holds h hiso hop ht (fun op hlook => hlook.not_writes p) hframe

omit [DecidableEq F] in
theorem setupOn_of_knows (htr : tr = t ++ (i, e) :: t') (ht : Explains FileOp.handle d (t.map Prod.snd) s)
    (hop : e.op.Writes (setupPath data)) {pp : PublicParams G₁ G₂ Gₜ} {msk : MasterSecret F}
    (h : KnowsSetup C D data (own i t) pp msk) : setupOn C D data s = .ok (pp, msk) :=
  holds_of_knows hlost (Or.inl rfl) htr ht hop
    (fun _ _ hop s hs => (setupOn_congr (FileOp.lookup_handle hop s)).trans hs) h

omit [DecidableEq F] in
theorem userKeyOn_of_knows {user : String} (htr : tr = t ++ (i, e) :: t')
    (ht : Explains FileOp.handle d (t.map Prod.snd) s) (hop : e.op.Writes (keyFile data user))
    {existing : Except String (UserSecretKey G₂)} (h : KnowsKey C D data user (own i t) existing) :
    (Cmd.caught (userKeyOn C D data user s) : Outcome String _) = .ok existing :=
  holds_of_knows hlost (Or.inr (Or.inr ⟨user, rfl⟩)) htr ht hop
    (fun _ _ hop s hs => by rw [userKeyOn_congr (FileOp.lookup_handle hop s), hs]) h

include hrun hadds

section Parameters

variable (hC : C.ReadsBack) (hX : D.HexReadsBack) (hD : D.ReadsShallow)
include hC hX hD

/-- **The parameters only grow.** -/
theorem stored_along (t t' t'' : List (ι × Event FileOp.Reply)) {pp : PublicParams G₁ G₂ Gₜ}
    {msk : MasterSecret F} (htr : tr = t ++ (t' ++ t''))
    (ht : Explains FileOp.handle d (t.map Prod.snd) s) (ht' : Explains FileOp.handle s (t'.map Prod.snd) s')
    (h : Stored C D data pp msk s) : ∃ pp', Stored C D data pp' msk s' ∧ Extends pp pp' := by
  refine Explains.along t t' t'' (fun _ s => ∃ pp', Stored C D data pp' msk s ∧ Extends pp pp')
    ?_ ht ht' ⟨pp, h, Extends.refl pp⟩
  rintro u i e u' s hu hs - ⟨pp₁, h₁, hext⟩
  by_cases hop : e.op.Writes (setupPath data)
  · have hsaves := (hrun.allowed hX hadds (htr.trans hu)).saves (f := .setup) (by simp)
      (by rwa [← setupPath_eq])
    obtain ⟨b, hb, hsaves⟩ := hsaves
    cases hsaves with
    | setup hknows calls =>
      obtain ⟨rfl, rfl⟩ := h₁.eq hC hX hD (setupOn_of_knows hlost (htr.trans hu) hs hop hknows)
      refine ⟨_, ⟨?_, h₁.deployed.registerAll calls⟩, hext.trans (extends_registerAll _ calls)⟩
      rw [hb, setupPath_eq]
      exact Disk.lookup_write_self s _ _
  · exact ⟨pp₁, ⟨(FileOp.lookup_handle hop s).trans h₁.setup, h₁.deployed⟩, hext⟩

/-- Parameters that a command has saved are extended by those on the disk. -/
theorem SavedSetup.along {pp₀ : PublicParams G₁ G₂ Gₜ} {msk₀ : MasterSecret F}
    (h₀ : Stored C D data pp₀ msk₀ d) (htr : tr = t ++ t')
    (ht : Explains FileOp.handle d (t.map Prod.snd) s) {pp : PublicParams G₁ G₂ Gₜ} {msk : MasterSecret F}
    (h : SavedSetup C D data (own i t) pp msk) : ∃ pp', Stored C D data pp' msk s ∧ Extends pp pp' := by
  obtain ⟨es, r, es', pp₁, hown, hknows, calls, rfl⟩ := h
  obtain ⟨u, u', rfl, rfl, -⟩ := exists_of_own_eq hown
  rw [List.map_append, explains_append] at ht
  obtain ⟨s₁, hu, hreply, hu'⟩ := ht
  have htr₁ : tr = u ++ (i, ⟨.write (setupPath data) (setupBytes C D (registerAll pp₁ calls) msk), r⟩) ::
    (u' ++ t') := by simpa using htr
  obtain ⟨pp₂, hstored, -⟩ := stored_along hrun hadds hlost hC hX hD [] u _ htr₁ rfl hu h₀
  obtain ⟨rfl, rfl⟩ := hstored.eq hC hX hD (setupOn_of_knows hlost htr₁ hu rfl hknows)
  have hsaved : Stored C D data (registerAll pp₁ calls) msk
      (s₁.write (setupPath data) (setupBytes C D (registerAll pp₁ calls) msk)) :=
    ⟨Disk.lookup_write_self s₁ _ _, hstored.deployed.registerAll calls⟩
  refine stored_along hrun hadds hlost hC hX hD _ u' t' ?_ (hu.concat (i := i) hreply) hu' hsaved
  simpa using htr₁

/-- **Keys and packages stay coherent** with the parameters on the disk. -/
theorem coherent_along {pp : PublicParams G₁ G₂ Gₜ} {msk : MasterSecret F}
    (h : Coherent C A D data pp msk d) : ∃ pp', Coherent C A D data pp' msk d' := by
  refine Explains.along [] tr [] (fun _ s => ∃ pp', Coherent C A D data pp' msk s) ?_ rfl hrun.explains
    ⟨pp, h⟩
  rintro u i e u' s hu hs - ⟨pp₁, h₁⟩
  have htr : tr = u ++ (i, e) :: u' := by simpa using hu
  -- what was made with parameters that the command has saved is coherent with those on the disk
  have hsaved : ∀ {pp₂ msk₂}, SavedSetup C D data (own i u) pp₂ msk₂ → msk₂ = msk ∧ Extends pp₂ pp₁ := by
    intro pp₂ msk₂ hsaved
    obtain ⟨pp₃, hstored, hext⟩ := hsaved.along hrun hadds hlost hC hX hD h.stored htr hs
    obtain ⟨rfl, rfl⟩ := h₁.stored.eq hC hX hD
      (setupOn_of_lookup hC hX hD hstored.deployed.eq hstored.setup)
    exact ⟨rfl, hext⟩
  have hlog : ∀ b, Coherent C A D data pp₁ msk (s.append (File.audit.path data) b) := fun b =>
    h₁.of_view (view_write_of_not_carries (f := .audit) id s _)
  have hallowed := hrun.allowed hX hadds htr
  obtain ⟨op, r⟩ := e
  cases hallowed with
  | read p | exist p => exact ⟨pp₁, h₁⟩
  | createDirAll hcs => exact ⟨pp₁, h₁.createDirAll _⟩
  | openLog => exact ⟨pp₁, hlog []⟩
  | log b => exact ⟨pp₁, hlog b⟩
  | save hsaves =>
    cases hsaves with
    | setup hknows calls =>
      obtain ⟨rfl, rfl⟩ := h₁.stored.eq hC hX hD
        (setupOn_of_knows hlost htr hs (setupPath_eq data).symm hknows)
      have hnext : Coherent C A D data (registerAll _ calls) _ _ := h₁.saveSetup rfl
      rw [setupPath_eq] at hnext
      exact ⟨_, hnext⟩
    | key hcommand hknows hpast husk hmerged =>
      obtain ⟨rfl, hext⟩ := hsaved hpast
      exact ⟨pp₁, h₁.saveUserKey _ (husk.mono hext)⟩
    | wrappedKey id hpast hseals =>
      obtain ⟨rfl, hext⟩ := hsaved hpast
      exact ⟨pp₁, h₁.saveWrappedKey id (hseals.mono hext)⟩
    | sealedDoc name b | manifest name b | revokedAttribute hcommand hknows hfirst
      | revokedUser hcommand hknows hfirst =>
      exact ⟨pp₁, h₁.of_view (view_write_of_not_carries id s _)⟩

end Parameters

/-- **A key file only grows.** -/
theorem holdsKey_along (hC : C.ReadsBack) (hX : D.HexReadsBack) (hD : D.ReadsShallow) {user : String}
    (huser : (keysDir data).LeadsInto (user ++ ".json")) {usk : UserSecretKey G₂}
    (htr : tr = t ++ t') (ht : Explains FileOp.handle d (t.map Prod.snd) s)
    (ht' : Explains FileOp.handle s (t'.map Prod.snd) s') (h : userKeyOn C D data user s = .ok usk) :
    ∃ usk', userKeyOn C D data user s' = .ok usk' ∧ ∀ a ∈ usk.attributes, a ∈ usk'.attributes := by
  refine Explains.along t t' [] (fun _ s => ∃ usk', userKeyOn C D data user s = .ok usk' ∧
    ∀ a ∈ usk.attributes, a ∈ usk'.attributes) ?_ ht ht' ⟨usk, h, fun _ ha => ha⟩
  rintro u i e u' s hu hs - ⟨usk₁, h₁, hmore⟩
  have htr : tr = u ++ (i, e) :: u' := by simpa [htr] using hu
  by_cases hop : e.op.Writes (keyFile data user)
  · have hfile := hop
    rw [keyFile_eq_of_leadsInto huser] at hfile
    obtain ⟨b, hb, hsaves⟩ := (hrun.allowed hX hadds htr).saves (by simp) hfile
    generalize hname : File.key (Path.lastPart user) = f at hb hsaves
    cases hsaves with
    | @key args existing pp msk attrs r usk₂ hcommand hknows hpast husk hmerged =>
      have hargs : (keysDir data).LeadsInto (args.user ++ ".json") := by
        have hadd := hadds i
        rwa [hcommand] at hadd
      have hsame : keyFile data args.user = keyFile data user := by
        rw [keyFile_eq_of_leadsInto hargs, keyFile_eq_of_leadsInto huser, hname]
      have hfound : userKeyOn C D data args.user s = .ok usk₁ := by
        rw [userKeyOn_eq_ok, hsame]
        exact userKeyOn_eq_ok.1 h₁
      have hexisting := userKeyOn_of_knows hlost htr hs (by rwa [hsame]) hknows
      rw [hfound] at hexisting
      obtain rfl := Except.ok.inj hexisting
      refine ⟨usk₂, userKeyOn_of_lookup hC hX hD ?_, fun a ha => hmerged usk₁ rfl a (hmore a ha)⟩
      rw [hb, ← hname, keyFile_eq_of_leadsInto huser]
      exact Disk.lookup_write_self s _ _
    | _ => cases hname
  · exact ⟨usk₁, (userKeyOn_congr (FileOp.lookup_handle hop s)).trans h₁, hmore⟩

theorem revocationOn_of_knows (hX : D.HexReadsBack) (htr : tr = t ++ (i, e) :: t')
    (ht : Explains FileOp.handle d (t.map Prod.snd) s) (hop : e.op.Writes (revocationPath data))
    {rl : RevocationList} (h : KnowsRevocation D data (own i t) rl) : revocationOn D data s = .ok rl := by
  refine holds_of_knows hlost (Or.inr (Or.inl rfl)) htr ht hop (fun x hx hop s hs => ?_) h
  obtain ⟨u, u', rfl⟩ := List.append_of_mem hx
  have hx : tr = u ++ (x.1, x.2) :: (u' ++ (i, e) :: t') := by simp [htr]
  have hallowed := hrun.allowed hX hadds hx
  exact (hallowed.revocationOn_eq hop s).trans hs

/-- **The revocation list** has one revocation more with each save of it. -/
theorem revoked_along [Fintype ι] (hX : D.HexReadsBack) (hD : D.ReadsShallow) {rl : RevocationList}
    (h : revocationOn D data d = .ok rl) : ∃ rl', revocationOn D data d' = .ok rl' ∧
      (∀ a, rl'.currentEpoch a = rl.currentEpoch a + UInt64.ofNat (raised data calls tr a)) ∧
      ∀ i user, (calls i).command = .revokeUser user → SavedRevocation data (own i tr) →
        rl'.isUserRevoked user = true := by
  refine Explains.along [] tr [] (fun t s => ∃ rl',
    revocationOn D data s = .ok rl' ∧
      (∀ a, rl'.currentEpoch a = rl.currentEpoch a + UInt64.ofNat (raised data calls t a)) ∧
      ∀ i user, (calls i).command = .revokeUser user → SavedRevocation data (own i t) →
        rl'.isUserRevoked user = true) ?_ rfl hrun.explains ⟨rl, h, fun a => ?_, fun i user _ hno => ?_⟩
  · rintro u i e u' s hu hs - ⟨rl₁, h₁, hepochs, husers⟩
    have htr : tr = u ++ (i, e) :: u' := by simpa using hu
    have hallowed := hrun.allowed hX hadds htr
    by_cases hop : e.op.Writes (revocationPath data)
    · have hfile := hop
      rw [revocationPath_eq] at hfile
      obtain ⟨b, hb, hsaves⟩ := hallowed.saves (f := .revocation) (by simp) hfile
      have hon : ∀ rl₂ : RevocationList, rl₂.path = revocationPath data →
          b = RevocationList.encode D rl₂.state → revocationOn D data (e.op.handle s).2 = .ok rl₂ := by
        rintro ⟨path, st⟩ rfl rfl
        apply revocationOn_of_lookup hD
        rw [hb, revocationPath_eq]
        exact Disk.lookup_write_self s _ _
      have hpath := path_of_revocationOn h₁
      cases hsaves with
      | @revokedAttribute attr rl₂ hcommand hknows hfirst =>
        obtain rfl := Except.ok.inj (h₁.symm.trans (revocationOn_of_knows hrun hadds hlost hX htr hs hop hknows))
        refine ⟨rl₁.bumped attr, hon _ hpath rfl, fun a => ?_, fun j user hj hsaved => ?_⟩
        · by_cases ha : a = attr
          · subst ha
            rw [raised_concat hop (by rw [hcommand]; rfl) hfirst, rl₁.currentEpoch_bumped_self, hepochs,
              UInt64.ofNat_add]
            exact UInt64.add_assoc _ _ _
          · rw [raised_concat_of_not fun _ => by rw [hcommand]; simpa [Command.attribute?] using Ne.symm ha,
              RevocationList.currentEpoch_bumped_ne ha, hepochs]
        · rcases savedRevocation_own_concat.1 hsaved with hsaved | ⟨rfl, -⟩
          · exact husers j user hj hsaved
          · rw [hcommand] at hj
            cases hj
      | @revokedUser user₂ rl₂ hcommand hknows hfirst =>
        obtain rfl := Except.ok.inj (h₁.symm.trans (revocationOn_of_knows hrun hadds hlost hX htr hs hop hknows))
        refine ⟨rl₁.withUser user₂, hon _ ((rl₁.path_withUser user₂).trans hpath) rfl, fun a => ?_,
          fun j user hj hsaved => ?_⟩
        · rw [raised_concat_of_not fun _ => by rw [hcommand]; simp [Command.attribute?],
            RevocationList.currentEpoch_withUser, hepochs]
        · rw [RevocationList.isUserRevoked_withUser]
          rcases savedRevocation_own_concat.1 hsaved with hsaved | ⟨rfl, -⟩
          · exact Or.inl (husers j user hj hsaved)
          · rw [hcommand] at hj
            exact Or.inr (Command.revokeUser.inj hj)
    · refine ⟨rl₁, (hallowed.revocationOn_eq hop s).trans h₁, fun a => ?_, fun j user hj hsaved => ?_⟩
      · rw [raised_concat_of_not fun hwrites => absurd hwrites hop, hepochs]
      · rcases savedRevocation_own_concat.1 hsaved with hsaved | ⟨-, hwrites⟩
        · exact husers j user hj hsaved
        · exact absurd hwrites hop
  · simp [raised, SavedRevocation]
  · simp [SavedRevocation] at hno

omit hadds hlost in
/-- **An attribute that was granted** is in the key that the command saves. -/
theorem exists_saved_of_granted {args : IssueArgs} (hcommand : (calls i).command = .issue args)
    (huser : (keysDir data).LeadsInto (args.user ++ ".json")) {a : String}
    (h : Granted C D data args (calls i).fresh (own i tr) a) : ∃ usk r,
      (i, ⟨.write (keyFile data args.user) (userKeyBytes C D usk), r⟩) ∈ tr ∧ a ∈ usk.attributes := by
  obtain ⟨es₁, es₂, key, hown, hprepared, ha⟩ := h
  have hperforms := hrun.performs i
  rw [hcommand] at hperforms
  obtain ⟨es₁', key', es₂', hown', hprepared', hsaves⟩ := Cmd.performs_bind_ok.1 hperforms
  obtain ⟨rfl, hkey, rfl⟩ := hprepared.unique hprepared' (hown.symm.trans hown')
  obtain rfl := Except.ok.inj hkey
  have hobeys : Cmd.Obeys (fun _ _ => True) (prepareIssue C D data args (calls i).fresh) _ [] :=
    obeys_prepareIssue C D data (fun _ _ _ _ => trivial) huser (calls i).fresh
  obtain ⟨-, -, -, -, -, -, r, hminted⟩ := (Prog.Obeys.of_performs hobeys hprepared).2 key rfl
  obtain ⟨fs₁, -, fs₂, rfl, -, hsaves⟩ := Cmd.performs_bind_ok.1 hsaves
  obtain ⟨gs₁, u, gs₂, rfl, hsave, -⟩ := Cmd.performs_bind_ok.1 hsaves
  obtain ⟨ks₁, -, ks₂, rfl, -, hwrite⟩ := Cmd.performs_bind_ok.1 hsave
  obtain ⟨reply, rfl⟩ := (Fs.single_write _ _).mapErr.performs hwrite
  refine ⟨key.usk, reply, mem_own.1 ?_, (hminted.mem a).2 ha⟩
  rw [hown]
  simp

end Along

/-! ## The result -/

/-- **No update is lost** among commands that add to a deployment at the same time and all succeed, if none
saves a shared file between the last look of another at it and its save. -/
theorem reflects_of_noneLost [Fintype ι] (hC : C.ReadsBack) (hX : D.HexReadsBack) (hD : D.ReadsShallow)
    {d d' : Disk} {pp : PublicParams G₁ G₂ Gₜ} {msk : MasterSecret F} (hd : Coherent C A D data pp msk d)
    {rl : RevocationList} (hrl : revocationOn D data d = .ok rl) {calls : ι → Call F}
    (hadds : ∀ i, (calls i).command.Adds data) {tr : List (ι × Event FileOp.Reply)}
    (hrun : Together C A D cwd data calls d tr d') (hlost : NoneLost data tr) :
    Reflects C D data calls rl tr d' := by
  have hsaved : ∀ i, (calls i).command.Revokes → SavedRevocation data (own i tr) := fun i =>
    (Prog.Obeys.of_performs (obeys_run C A D cwd data hX (hadds i) (calls i).fresh)
      (hrun.performs i)).2 () rfl
  refine ⟨?_, fun i args a hcommand hgranted => ?_, ?_⟩
  · obtain ⟨pp', h'⟩ := coherent_along hrun hadds hlost hC hX hD hd
    exact Sound.committed hC hX hD (Or.inr ⟨pp', msk, h'⟩)
  · have huser : (keysDir data).LeadsInto (args.user ++ ".json") := by
      have hadd := hadds i
      rwa [hcommand] at hadd
    obtain ⟨usk, r, hmem, ha⟩ := exists_saved_of_granted hrun hcommand huser hgranted
    obtain ⟨t, t', htr⟩ := List.append_of_mem hmem
    have hexplains := hrun.explains
    rw [htr, List.map_append, explains_append] at hexplains
    obtain ⟨s, ht, hreply, ht'⟩ := hexplains
    have hkey : userKeyOn C D data args.user
        (s.write (keyFile data args.user) (userKeyBytes C D usk)) = .ok usk :=
      userKeyOn_of_lookup hC hX hD (Disk.lookup_write_self s _ _)
    obtain ⟨usk', hkey', hmore⟩ := holdsKey_along hrun hadds hlost hC hX hD huser
      (t := t ++ [(i, _)]) (by simpa using htr) (ht.concat hreply) ht' hkey
    exact ⟨usk', hkey', hmore a ha⟩
  · obtain ⟨rl', hrl', hepochs, husers⟩ := revoked_along hrun hadds hlost hX hD hrl
    refine ⟨rl', hrl', fun a => ?_, fun i user hcommand => husers i user hcommand (hsaved i ?_)⟩
    · rw [hepochs, raised, revocations]
      congr 3
      refine Finset.filter_congr fun i _ => and_iff_left_of_imp fun hattr => hsaved i ?_
      cases hcommand : (calls i).command with
      | revokeAttribute attr => trivial
      | _ => simp [hcommand, Command.attribute?] at hattr
    · rw [hcommand]
      trivial

/-! ## Examples -/

/-- Two revocations of the attribute `a`. -/
def exampleRevocations (_ : Fin 2) : Call Scalar := ⟨.revokeAttribute "a", exampleFresh⟩

/-- The disk after a setup. -/
def exampleSetup : Disk :=
  runAll exponents boxes serdeJsonUnlimited exampleCwd exampleData [⟨.setup, exampleFresh⟩] emptyDisk

/-- Both commands look for the list before one of them saves it. -/
def exampleTrace : List (Fin 2 × Event FileOp.Reply) :=
  let file := revocationPath exampleData
  let b := RevocationList.encode serdeJsonUnlimited (RevocationList.bumped ⟨file, default⟩ "a").state
  let log := auditPath exampleData
  let text := utf8 (serdeJsonUnlimited.toString (revokeAttributeEvent "a" 1 exampleFresh).toJson)
  let record : List (Event FileOp.Reply) := [⟨.openAppend log, .ok ()⟩, ⟨.append log text, .ok ()⟩,
    ⟨.append log (utf8 "\n"), .ok ()⟩]
  [(0, ⟨.exist file, false⟩), (1, ⟨.exist file, false⟩), (0, ⟨.write file b, .ok ()⟩),
    (1, ⟨.write file b, .ok ()⟩)] ++ record.map (Prod.mk 0) ++ record.map (Prod.mk 1)

theorem represents_exampleSetup : ∃ w, Represents exponents serdeJsonUnlimited exampleData exampleSetup w ∧
    w.revocation = none ∧ (∀ user, w.keys user = none) ∧ ∀ id, w.packages id = none :=
  ⟨_, represents_cmdSetup exponents serdeJsonUnlimited (vacant_emptyDisk exampleData) exampleFresh, rfl,
    fun _ => rfl, fun _ => rfl⟩

theorem coherent_exampleSetup :
    ∃ pp msk, Coherent exponents boxes serdeJsonUnlimited exampleData pp msk exampleSetup := by
  obtain ⟨w, h, -, hkeys, hpackages⟩ := represents_exampleSetup
  refine ⟨w.pp, w.msk, by rw [h.view]; rfl, h.deployed, fun user b hb => ?_, fun id b hb => ?_⟩
  · rw [h.view, World.contents, hkeys] at hb
    cases hb
  · rw [h.view, World.contents, hpackages] at hb
    cases hb

theorem revocationOn_exampleSetup : revocationOn serdeJsonUnlimited exampleData exampleSetup =
    .ok ⟨revocationPath exampleData, default⟩ := by
  obtain ⟨w, h, hrevocation, -⟩ := represents_exampleSetup
  rw [h.revocationOn_eq readsBack_serdeJsonUnlimited.shallow, World.revocationList, hrevocation]
  rfl

/-- Two revocations, one after the other, are both kept. -/
theorem reflects_exampleRevocations : ∃ tr d',
    Together exponents boxes serdeJsonUnlimited exampleCwd exampleData exampleRevocations exampleSetup tr d' ∧
    Reflects exponents serdeJsonUnlimited exampleData exampleRevocations
      ⟨revocationPath exampleData, default⟩ tr d' := by
  have hC := readsBack_exponents
  have hX := hexReadsBack_serdeJsonUnlimited
  have hD := readsBack_serdeJsonUnlimited.shallow
  have hrevoke : ∀ {d w}, Represents exponents serdeJsonUnlimited exampleData d w → ∃ d' w',
      Fs.exec (cmdRevokeAttribute serdeJsonUnlimited exampleData "a" exampleFresh) d = (.ok (), d') ∧
        Represents exponents serdeJsonUnlimited exampleData d' w' := by
    intro d w h
    refine ⟨_, _, Prod.ext ?_ rfl, h.revokeAttribute boxes exampleCwd hD "a" exampleFresh⟩
    rw [exec_cmdRevokeAttribute, h.revocationOn_eq hD, Cmd.andThen_ok]
  obtain ⟨w, h, -⟩ := represents_exampleSetup
  obtain ⟨pp, msk, hcoherent⟩ := coherent_exampleSetup
  obtain ⟨d₁, w₁, h₀, hd₁⟩ := hrevoke h
  obtain ⟨d₂, w₂, h₁, -⟩ := hrevoke hd₁
  obtain ⟨es, es', hrun⟩ : ∃ es es' : List (Event FileOp.Reply), Together exponents boxes
      serdeJsonUnlimited exampleCwd exampleData exampleRevocations exampleSetup
      (es.map (Prod.mk 0) ++ es'.map (Prod.mk 1)) d₂ := exists_interleaves_of_run_run h₀ h₁
  have hadds : ∀ i, (exampleRevocations i).command.Adds exampleData := fun _ => trivial
  refine ⟨_, d₂, hrun, reflects_of_noneLost hC hX hD hcoherent revocationOn_exampleSetup hadds hrun
    fun p _ => isolated_of_pairwise ?_⟩
  simp [List.pairwise_append, List.pairwise_map, List.pairwise_of_forall]

/-- In the end the list has one revocation. -/
theorem exists_together_exampleTrace : ∃ d',
    Together exponents boxes serdeJsonUnlimited exampleCwd exampleData exampleRevocations exampleSetup
      exampleTrace d' ∧
    revocationOn serdeJsonUnlimited exampleData d' =
      .ok (RevocationList.bumped ⟨revocationPath exampleData, default⟩ "a") := by
  have hperforms : ∀ (D : Codec) (data : Path) (fresh : Fresh Scalar),
      Prog.Performs (cmdRevokeAttribute D data "a" fresh) [⟨.exist (revocationPath data), false⟩,
        ⟨.write (revocationPath data) (RevocationList.encode D
          (RevocationList.bumped ⟨revocationPath data, default⟩ "a").state), .ok ()⟩,
        ⟨.openAppend (auditPath data), .ok ()⟩,
        ⟨.append (auditPath data) (utf8 (D.toString (revokeAttributeEvent "a" 1 fresh).toJson)), .ok ()⟩,
        ⟨.append (auditPath data) (utf8 "\n"), .ok ()⟩] (.ok ()) := fun D data fresh =>
    .step (.step (.step (.step (.step (.pure _)))))
  have hnone : exampleSetup.has (revocationPath exampleData) = false := by
    obtain ⟨w, h, hrevocation, -⟩ := represents_exampleSetup
    have hfile : exampleSetup.files.lookup (revocationPath exampleData) = none := by
      rw [revocationPath_eq]
      exact (congrFun h.view .revocation).trans (congrArg (Option.map _) hrevocation)
    have hnoDir := h.noDir
    rw [← revocationPath_eq] at hnoDir
    simp [Disk.has, AList.lookup_eq_none.1 hfile, hnoDir]
  refine ⟨_, ⟨fun i => ?_, hnone, hnone, rfl, rfl, rfl, rfl, rfl, rfl, rfl, rfl, rfl⟩, ?_⟩
  · revert i
    exact Fin.forall_fin_two.2 ⟨hperforms _ _ _, hperforms _ _ _⟩
  · have hne : revocationPath exampleData ≠ auditPath exampleData := by decide
    apply revocationOn_of_lookup readsBack_serdeJsonUnlimited.shallow
    simp only [FileOp.handle, Disk.lookup_append_ne hne]
    exact Disk.lookup_write_self _ _ _

/-! ### A name that leads to the parameters -/

/-- A key for a user whose name leads to the file of the parameters. -/
def issueToSetup : IssueArgs := ⟨"root", "../setup", ["a"], [], []⟩

omit [DecidableEq F] in
/-- Parameters are no key. -/
theorem userKeyOn_of_setupBytes (hD : D.ReadsShallow) {user : String} {d : Disk}
    {pp : PublicParams G₁ G₂ Gₜ} {msk : MasterSecret F}
    (h : d.files.lookup (keyFile data user) = some (setupBytes C D pp msk)) :
    (userKeyOn C D data user d : Outcome String (UserSecretKey G₂)) =
      Outcome.err (AbeError.encoding "missing field subject").toText := by
  have hdepth := (setupBundleDto C D pp msk).depth_toJson
  have hmissing : UserSecretKeyDto.fromJson (setupBundleDto C D pp msk).toJson =
      .error "missing field subject" := by
    unfold UserSecretKeyDto.fromJson SetupBundleDto.toJson
    rw [Json.structFields_missing (by simp)]
    rfl
  rw [userKeyOn, Disk.read_of_lookup h, setupBytes, Fs.textOf_utf8, Outcome.mapErr_ok, ok_bind,
    userKeyFromJson, setupBundleToJson, hD _ (by omega), ok_bind, hmissing]
  rfl

omit [DecidableEq F] in
/-- A key is no parameters. -/
theorem setupOn_of_userKeyBytes (hD : D.ReadsShallow) {d : Disk} {usk : UserSecretKey G₂}
    (h : d.files.lookup (setupPath data) = some (userKeyBytes C D usk)) :
    setupOn C D data d = Outcome.err (AbeError.encoding "missing field alpha").toText := by
  have hdepth := (userKeyDto C D usk).depth_toJson
  have hmissing : SetupBundleDto.fromJson (userKeyDto C D usk).toJson = .error "missing field alpha" := by
    unfold SetupBundleDto.fromJson UserSecretKeyDto.toJson
    rw [Json.structFields_missing (by simp)]
    rfl
  rw [setupOn, Disk.read_of_lookup h, userKeyBytes, Fs.textOf_utf8, Outcome.mapErr_ok, ok_bind,
    setupBundleFromJson, userKeyToJson, hD _ (by omega), ok_bind, hmissing]
  rfl

/-- A single command takes the file of the parameters for a key file. -/
theorem exists_together_issueToSetup : ∃ (tr : List (Unit × Event FileOp.Reply)) (d' : Disk),
    Together exponents boxes serdeJsonUnlimited exampleCwd exampleData
      (fun _ : Unit => ⟨.issue issueToSetup, exampleFresh⟩)
      (runAll exponents boxes serdeJsonUnlimited exampleCwd exampleData exampleRun emptyDisk) tr d' ∧
    NoneLost exampleData tr ∧ ¬ Committed exponents serdeJsonUnlimited exampleData d' := by
  obtain ⟨w, usk, h, hkey, -, hbeta, hregistry, hrevocation⟩ := exists_key_exampleRun
  generalize runAll exponents boxes serdeJsonUnlimited exampleCwd exampleData exampleRun emptyDisk = d
    at h hkey ⊢
  have hC := readsBack_exponents
  have hX := hexReadsBack_serdeJsonUnlimited
  have hD := readsBack_serdeJsonUnlimited.shallow
  have hpath : keyFile exampleData "../setup" = setupPath exampleData := by decide
  have hsetup : d.files.lookup (setupPath exampleData) =
      some (setupBytes exponents serdeJsonUnlimited w.pp w.msk) := by
    rw [setupPath_eq]
    exact congrFun h.view .setup
  have hnoKey := userKeyOn_of_setupBytes hD (hpath ▸ hsetup)
  have hadmits : Admits exponents serdeJsonUnlimited exampleData issueToSetup d
      ⟨w.pp, w.msk, w.registry, w.revocationList exampleData, [.flag "a"],
        .error (AbeError.encoding "missing field subject").toText⟩ := by
    refine ⟨h.setupOn_eq hC hX hD, h.registryOn_eq hD, h.revocationOn_eq hD, ?_, rfl, ?_,
      congrArg Cmd.caught hnoKey⟩
    · rw [World.revocationList, hrevocation]
      rfl
    · rw [hregistry]
      exact List.forall_mem_singleton.2 rfl
  obtain ⟨key, hissued⟩ := exists_issueOutcome exampleFresh hadmits hbeta
    fun usk' husk => (by cases husk)
  have hexec := exec_cmdIssue exponents serdeJsonUnlimited exampleData issueToSetup exampleFresh d
  rw [hissued, Cmd.andThen_ok] at hexec
  obtain ⟨es, hrun⟩ := exists_interleaves_of_run (ι := Unit) hexec
  refine ⟨_, _, hrun, fun p _ => isolated_of_pairwise (by simp [List.pairwise_of_forall]),
    fun hcommitted => ?_⟩
  have hkept : (afterIssue exponents serdeJsonUnlimited exampleData issueToSetup exampleFresh key d).files.lookup
      (keyFile exampleData "alice") = d.files.lookup (keyFile exampleData "alice") := by
    rw [afterIssue, Disk.lookup_append_ne (by decide), Disk.lookup_write_ne (by decide),
      Disk.files_createDirAll, Disk.lookup_write_ne (by decide)]
  have hlost : (afterIssue exponents serdeJsonUnlimited exampleData issueToSetup exampleFresh key d).files.lookup
      (setupPath exampleData) = some (userKeyBytes exponents serdeJsonUnlimited key.usk) := by
    rw [afterIssue, Disk.lookup_append_ne (by decide), issueToSetup, hpath]
    exact Disk.lookup_write_self _ _ _
  have hfile : ∃ b, d.files.lookup (keyFile exampleData "alice") = some b := by
    rw [keyFile_eq (by decide)]
    cases hkeys : w.keys "alice" with
    | none =>
      rw [h.userKeyOn_eq_err (by decide) hkeys] at hkey
      cases hkey
    | some usk' => exact ⟨_, (congrFun h.view (.key "alice")).trans (congrArg (Option.map _) hkeys)⟩
  obtain ⟨b, hb⟩ := hfile
  rw [← hkept, keyFile_eq (by decide)] at hb
  obtain ⟨pp, msk, -, -, hon, -⟩ := hcommitted.keys "alice" b hb
  rw [setupOn_of_userKeyBytes hD hlost] at hon
  cases hon

/-- **Updates can be lost**: of two revocations one is kept, if each command looks for the list before the
other saves it; and a user's name can lead a single command to the file of the parameters. -/
theorem not_reflects_exampleTrace :
    (∃ d', Together exponents boxes serdeJsonUnlimited exampleCwd exampleData exampleRevocations
        exampleSetup exampleTrace d' ∧
      ¬ Reflects exponents serdeJsonUnlimited exampleData exampleRevocations
        ⟨revocationPath exampleData, default⟩ exampleTrace d') ∧
    ∃ (tr : List (Unit × Event FileOp.Reply)) (d' : Disk),
      Together exponents boxes serdeJsonUnlimited exampleCwd exampleData
        (fun _ : Unit => ⟨.issue issueToSetup, exampleFresh⟩)
        (runAll exponents boxes serdeJsonUnlimited exampleCwd exampleData exampleRun emptyDisk) tr d' ∧
      NoneLost exampleData tr ∧
      ∀ rl, ¬ Reflects exponents serdeJsonUnlimited exampleData
        (fun _ : Unit => ⟨.issue issueToSetup, exampleFresh⟩) rl tr d' := by
  constructor
  · obtain ⟨d', hrun, hon⟩ := exists_together_exampleTrace
    refine ⟨d', hrun, fun h => ?_⟩
    obtain ⟨rl', hrl', hepochs, -⟩ := h.revoked
    obtain rfl := Except.ok.inj (hon.symm.trans hrl')
    have hepoch := hepochs "a"
    revert hepoch
    decide
  · obtain ⟨tr, d', hrun, hlost, hnot⟩ := exists_together_issueToSetup
    exact ⟨tr, d', hrun, hlost, fun rl h => hnot h.committed⟩

end SecureABE.Cli
