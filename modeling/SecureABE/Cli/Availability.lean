import SecureABE.Cli.Mirroring
import SecureABE.Cli.Overlapping
import SecureABE.Cli.Retention
import SecureABE.Foundations.Progress

/-!
# Access while commands overlap

Who can decrypt a package can do so at any time while other commands work on the directory, their accesses
in any order, even if writes of theirs fail and they are cut off. A command that decrypts the package among
the others, and whose own accesses do not fail, returns the document after ten of them
(`decrypts_among_others`). Updates that are lost do not matter here: every command saves parameters that
extend those it has loaded, and a key for the names that it has found.

`Openable` is the invariant that every command keeps.
-/

namespace SecureABE.Cli

open Rust SecureABE.Core SecureABE.Policy SecureABE.Revocation SecureABE.Authorities SecureABE.Audit
  SecureABE.Envelope SecureABE.Storage

variable {F G₁ G₂ Gₜ : Type} [Field F] [DecidableEq F] [AddCommGroup G₁] [Module F G₁]
  [AddCommGroup G₂] [Module F G₂] [AddCommGroup Gₜ] [Module F Gₜ]
variable {C : Curve F G₁ G₂ Gₜ} {A : Cipher} {D : Codec} {cwd data : Path}

/-! ## Where a command writes -/

section Targets

variable {ε α : Type} {targets : List Path}

/-- The access writes to one of the paths, if to any. -/
def WritesTo (targets : List Path) (op : FileOp) : Prop := ∀ p, op.Writes p → p ∈ targets

theorem writesTo_of_onlyReads {x : FileCmd ε α} {V : α → Prop} (h : Fs.OnlyReads x V) :
    Cmd.Only (WritesTo targets) x V :=
  h.mono fun op hop p hwrite => by cases op <;> cases hop <;> cases hwrite

theorem writesTo_createDirAll {f : IoError → ε} (p : Path) :
    Cmd.Only (WritesTo targets) (Cmd.mapErr f (Fs.createDirAll p)) fun _ => True :=
  (Fs.single_createDirAll p).mapErr.only fun _ h => h.elim

theorem writesTo_write {f : IoError → ε} {p : Path} (hp : p ∈ targets) (b : Bytes) :
    Cmd.Only (WritesTo targets) (Cmd.mapErr f (Fs.write p b)) fun _ => True :=
  (Fs.single_write p b).mapErr.only fun _ h => h ▸ hp

theorem writesTo_recordEvent (hlog : auditPath data ∈ targets) (event : AuditEvent) :
    Cmd.Only (WritesTo targets) (recordEvent D data event) fun _ => True := by
  refine Cmd.Only.mapErr (Cmd.Only.bind (V := fun _ => True) ?_ fun _ _ => ?_)
  · exact (Fs.single_openAppend _).mapErr.only fun _ h => h ▸ hlog
  have happend : ∀ b, Cmd.Only (WritesTo targets)
      (Cmd.mapErr AuditError.io (Fs.append (auditPath data) b)) fun _ => True := fun b =>
    (Fs.single_append _ b).mapErr.only fun _ h => h ▸ hlog
  exact (happend _).bind fun _ _ => happend _

theorem writesTo_open (root : Path) :
    Cmd.Only (WritesTo targets) (PackageStore.open root) fun store => store = ⟨root⟩ :=
  (writesTo_createDirAll root).bind fun _ _ => Cmd.only_pure rfl

variable (C A D cwd data) in
/-- **A command writes to its targets** only, whatever it reads. -/
theorem writesTo_run (call : Call F) :
    Cmd.Only (WritesTo (call.targets D cwd data)) (call.command.run C A D cwd data call.fresh)
      fun _ => True := by
  obtain ⟨command, fresh⟩ := call
  cases command with
  | setup =>
    refine (writesTo_createDirAll data).bind fun _ _ => ?_
    refine (writesTo_write (by simp [Call.targets]) _).bind fun _ _ => ?_
    refine (writesTo_write (by simp [Call.targets]) _).bind fun _ _ => ?_
    exact (writesTo_open _).mapErr.bind fun _ _ => writesTo_recordEvent (by simp [Call.targets]) _
  | registerAuthority name controls =>
    exact (writesTo_of_onlyReads (onlyReads_loadRegistry D data)).bind fun _ _ =>
      writesTo_write (by simp [Call.targets]) _
  | issue args =>
    apply (writesTo_of_onlyReads (onlyReads_prepareIssue C D data args fresh)).bind
    intro key _
    refine (writesTo_write (by simp [Call.targets]) _).bind fun _ _ => ?_
    refine Cmd.Only.bind (V := fun _ => True) ?_ fun _ _ => writesTo_recordEvent (by simp [Call.targets]) _
    exact (writesTo_createDirAll _).bind fun _ _ => writesTo_write (by simp [Call.targets]) _
  | encrypt file policy =>
    apply (writesTo_of_onlyReads (onlyReads_prepareEncrypt C D data policy fresh)).bind
    intro prepared _
    refine (writesTo_write (by simp [Call.targets]) _).bind fun _ _ => ?_
    refine (writesTo_of_onlyReads (Fs.onlyReads_read _).mapErr).bind fun plaintext _ => ?_
    apply (Cmd.only_outcome _).bind
    rintro ⟨package, rng⟩ -
    apply (writesTo_open _).mapErr.bind
    rintro store rfl
    refine Cmd.Only.bind (V := fun _ => True) (Cmd.Only.mapErr ?_) fun _ _ =>
      writesTo_recordEvent (by simp [Call.targets]) _
    refine (writesTo_createDirAll _).bind fun _ _ => ?_
    refine (writesTo_write (by simp [Call.targets, packageStore]) _).bind fun _ _ => ?_
    refine (writesTo_write (by simp [Call.targets, packageStore]) _).bind fun _ _ => ?_
    exact (writesTo_write (by simp [Call.targets, packageStore]) _).bind fun _ _ => Cmd.only_pure trivial
  | decrypt id user out =>
    apply (writesTo_of_onlyReads (onlyReads_loadSetup C D data)).bind
    rintro ⟨pp, msk⟩ -
    apply (writesTo_of_onlyReads (onlyReads_loadUserKey C D data user)).bind
    intro usk _
    apply (writesTo_open _).mapErr.bind
    intro store _
    apply (writesTo_of_onlyReads (onlyReads_get C D store id).mapErr).bind
    intro package _
    apply (Cmd.only_outcome _).attempt.bind
    intro r _
    cases r with
    | ok plaintext =>
      exact (writesTo_write (by simp [Call.targets]) _).bind fun _ _ =>
        writesTo_recordEvent (by simp [Call.targets]) _
    | error e =>
      exact (writesTo_recordEvent (by simp [Call.targets]) _).bind fun _ _ => Cmd.only_outcome _
  | revokeAttribute attr =>
    apply (writesTo_of_onlyReads (onlyReads_loadRevocation D data)).bind
    intro rl hpath
    refine Cmd.Only.bind (V := fun _ => True) (Cmd.Only.mapErr ?_) fun _ _ =>
      writesTo_recordEvent (by simp [Call.targets]) _
    refine only_revokeAttribute D (writesTo_write ?_ _)
    rw [show (rl.bumped attr).path = revocationPath data from hpath]
    simp [Call.targets]
  | revokeUser user =>
    apply (writesTo_of_onlyReads (onlyReads_loadRevocation D data)).bind
    intro rl hpath
    refine Cmd.Only.bind (V := fun _ => True) (Cmd.Only.mapErr ?_) fun _ _ =>
      writesTo_recordEvent (by simp [Call.targets]) _
    refine only_revokeUser D (writesTo_write ?_ _)
    rw [rl.path_withUser, hpath]
    simp [Call.targets]

end Targets

/-! ## What keeps a package open -/

variable (C A D data) in
/-- A disk holds a package that was sealed with the parameters, under a tree that the names satisfy. -/
structure Opening (id : String) (pp : PublicParams G₁ G₂ Gₜ) (msk : MasterSecret F) (names : List String)
    (package : EncryptedPackage G₁) (plaintext : Bytes) (d : Disk) : Prop where
  beta : msk.beta ≠ 0
  stored : storedOn C D data id (d.createDirAll (packagesDir data)) = .ok package
  tree : ∃ tree n, Seals C A D pp tree plaintext package ∧ n < 2 ^ 64 ∧ tree.Fits n ∧
    tree.isSatisfiedBy names = true

/-- The files that a decryption reads. -/
def File.Needed (user id : String) : File → Prop
  | .setup => True
  | .key user' => user' = user
  | .sealedDoc id' | .wrappedKey id' => id' = id
  | _ => False

variable (C D data) in
/-- The disk holds parameters that extend the given ones, a key of the user that was minted with such
parameters for the given names and perhaps others, and what the disk of before holds of the package. -/
structure Openable (user id : String) (pp₀ : PublicParams G₁ G₂ Gₜ) (msk : MasterSecret F)
    (names : List String) (d₀ d : Disk) : Prop where
  setup : ∃ pp, view data d .setup = some (setupBytes C D pp msk) ∧ Deployed C msk pp ∧ Extends pp₀ pp
  key : ∃ usk pp attrs r, view data d (.key user) = some (userKeyBytes C D usk) ∧ Deployed C msk pp ∧
    Extends pp₀ pp ∧ Minted pp msk attrs r usk ∧ ∀ a ∈ names, a ∈ attrs
  sealedDoc : view data d (.sealedDoc id) = view data d₀ (.sealedDoc id)
  wrappedKey : view data d (.wrappedKey id) = view data d₀ (.wrappedKey id)
  has : ∀ p, d₀.has p = true → d.has p = true

namespace Openable

variable {user id : String} {pp₀ : PublicParams G₁ G₂ Gₜ} {msk : MasterSecret F} {names : List String}
  {d₀ d : Disk}

omit [DecidableEq F] in
/-- An access that leaves the files alone that a decryption reads. -/
theorem wary (h : Openable C D data user id pp₀ msk names d₀ d) (op : FileOp)
    (hop : ∀ f : File, f.Needed user id → ¬ op.Writes (f.path data)) (φ : Option Fault) :
    Openable C D data user id pp₀ msk names d₀ (FileOp.wary φ op d).2 := by
  have hview : ∀ f : File, f.Needed user id → view data (FileOp.wary φ op d).2 f = view data d f :=
    fun f hf => FileOp.lookup_wary (hop f hf) φ d
  obtain ⟨pp, hsetup, hpp⟩ := h.setup
  obtain ⟨usk, pp', attrs, r, hkey, hminted⟩ := h.key
  exact ⟨⟨pp, (hview .setup trivial).trans hsetup, hpp⟩,
    ⟨usk, pp', attrs, r, (hview (.key user) rfl).trans hkey, hminted⟩,
    (hview (.sealedDoc id) rfl).trans h.sealedDoc, (hview (.wrappedKey id) rfl).trans h.wrappedKey,
    fun p hp => FileOp.has_wary (h.has p hp) op φ⟩

omit [DecidableEq F] in
/-- Parameters are saved that extend the given ones. -/
theorem saveSetup (h : Openable C D data user id pp₀ msk names d₀ d) {pp : PublicParams G₁ G₂ Gₜ}
    (hpp : Deployed C msk pp) (hext : Extends pp₀ pp) :
    Openable C D data user id pp₀ msk names d₀ (d.write (File.setup.path data) (setupBytes C D pp msk)) where
  setup := ⟨pp, by rw [view_write, Function.update_self], hpp, hext⟩
  key := by
    rw [view_write, Function.update_of_ne (by simp)]
    exact h.key
  sealedDoc := by rw [view_write, Function.update_of_ne (by simp), h.sealedDoc]
  wrappedKey := by rw [view_write, Function.update_of_ne (by simp), h.wrappedKey]
  has := fun p hp => Disk.has_write (h.has p hp) _ _

omit [DecidableEq F] in
/-- A key of the user is saved. -/
theorem saveKey (h : Openable C D data user id pp₀ msk names d₀ d) {usk : UserSecretKey G₂}
    {pp : PublicParams G₁ G₂ Gₜ} {attrs : List String} {r : F} (hpp : Deployed C msk pp)
    (hext : Extends pp₀ pp) (hminted : Minted pp msk attrs r usk) (hnames : ∀ a ∈ names, a ∈ attrs) :
    Openable C D data user id pp₀ msk names d₀
      (d.write ((File.key user).path data) (userKeyBytes C D usk)) where
  setup := by
    rw [view_write, Function.update_of_ne (by simp)]
    exact h.setup
  key := ⟨usk, pp, attrs, r, by rw [view_write, Function.update_self], hpp, hext, hminted, hnames⟩
  sealedDoc := by rw [view_write, Function.update_of_ne (by simp), h.sealedDoc]
  wrappedKey := by rw [view_write, Function.update_of_ne (by simp), h.wrappedKey]
  has := fun p hp => Disk.has_write (h.has p hp) _ _

variable (hC : C.ReadsBack) (hX : D.HexReadsBack) (hD : D.ReadsFaithfully)
include hC hX hD

omit [DecidableEq F] in
/-- **The parameters on file** extend the given ones. -/
theorem exists_setupOn (h : Openable C D data user id pp₀ msk names d₀ d) :
    ∃ pp, setupOn C D data d = .ok (pp, msk) ∧ Deployed C msk pp ∧ Extends pp₀ pp := by
  obtain ⟨pp, hsetup, hpp, hext⟩ := h.setup
  exact ⟨pp, setupOn_of_view hC hX hD.shallow hpp hsetup, hpp, hext⟩

omit [DecidableEq F] in
/-- **The key on file** has the names. -/
theorem exists_userKeyOn (h : Openable C D data user id pp₀ msk names d₀ d) (huser : '/' ∉ user.toList) :
    ∃ usk, userKeyOn C D data user d = .ok usk ∧ ∃ pp attrs r, Deployed C msk pp ∧ Extends pp₀ pp ∧
      Minted pp msk attrs r usk ∧ ∀ a ∈ names, a ∈ attrs := by
  obtain ⟨usk, pp, attrs, r, hkey, hminted⟩ := h.key
  exact ⟨usk, userKeyOn_of_view huser hC hX hD.shallow hkey, pp, attrs, r, hminted⟩

/-- **The key on file opens** the package. -/
theorem exists_opens (hA : A.Correct) {p : ℕ} [CharP F p] (hp : 2 ^ 64 < p) {package : EncryptedPackage G₁}
    {plaintext : Bytes} (h : Openable C D data user id pp₀ msk names d₀ d) (huser : '/' ∉ user.toList)
    (hopening : Opening C A D data id pp₀ msk names package plaintext d₀) :
    ∃ usk, userKeyOn C D data user d = .ok usk ∧
      ∀ pp : PublicParams G₁ G₂ Gₜ, Envelope.open C A D pp usk package = .ok plaintext := by
  obtain ⟨usk, husk, pp, attrs, r, hpp, hext, hminted, hnames⟩ := h.exists_userKeyOn hC hX hD huser
  obtain ⟨tree, n, hseals, hn, hfits, hsat⟩ := hopening.tree
  refine ⟨usk, husk, fun pp' => ?_⟩
  rw [open_eq pp' hA (IndicesDistinct.of_charP hp.le) hopening.beta hpp hminted hfits.positive
    (hfits.childrenLt hn) (hseals.mono hext), if_pos (AccessTree.isSatisfiedBy_mono hnames tree hsat)]

/-- **Decryption finds the document.** -/
theorem decryptOutcome_eq (hA : A.Correct) {p : ℕ} [CharP F p] (hp : 2 ^ 64 < p)
    {package : EncryptedPackage G₁} {plaintext : Bytes} (h : Openable C D data user id pp₀ msk names d₀ d)
    (huser : '/' ∉ user.toList) (hid : Path.IsName id)
    (hopening : Opening C A D data id pp₀ msk names package plaintext d₀) :
    decryptOutcome C A D data user id d = .ok plaintext := by
  obtain ⟨pp, hsetup, -⟩ := h.exists_setupOn hC hX hD
  obtain ⟨usk, husk, hopens⟩ := h.exists_opens hC hX hD hA hp huser hopening
  exact decryptOutcome_eq_ok.2 ⟨pp, msk, usk, package, hsetup, husk,
    storedOn_of_view hid h.sealedDoc h.wrappedKey h.has hopening.stored, hopens pp⟩

omit hX in
/-- A user and a package of one secret are openable. -/
theorem of_linked (hX : D.HexReadsBack) (hA : A.Correct) {p : ℕ} [CharP F p] (hp : 2 ^ 64 < p)
    (h : Linked C A D data {user} {id} pp₀ msk d) (huser : '/' ∉ user.toList) (hid : Path.IsName id)
    {plaintext : Bytes} (hdecrypts : decryptOutcome C A D data user id d = .ok plaintext) :
    ∃ names package, Opening C A D data id pp₀ msk names package plaintext d ∧
      Openable C D data user id pp₀ msk names d d := by
  obtain ⟨pp, msk', usk, package, -, husk, hpackage, hopen⟩ := decryptOutcome_eq_ok.1 hdecrypts
  obtain ⟨b, hb⟩ : ∃ b, view data d (.key user) = some b := by
    cases hfile : view data d (.key user) with
    | none =>
      rw [userKeyOn_of_view_none huser hfile] at husk
      cases husk
    | some b => exact ⟨b, rfl⟩
  obtain ⟨usk', attrs, r, rfl, hbeta, hminted⟩ := h.key user rfl b hb
  rw [userKeyOn_of_view huser hC hX hD.shallow hb] at husk
  obtain rfl := Except.ok.inj husk
  obtain ⟨tree, plaintext', n, hn, hfits, hseals⟩ := h.exists_seals hC hX hD rfl hid hpackage
  rw [open_eq pp hA (IndicesDistinct.of_charP hp.le) hbeta h.deployed hminted hfits.positive
    (hfits.childrenLt hn) hseals] at hopen
  split_ifs at hopen with hsat
  · obtain rfl := Except.ok.inj hopen
    exact ⟨attrs, package, ⟨hbeta, hpackage, tree, n, hseals, hn, hfits, hsat⟩,
      ⟨pp₀, h.setup, h.deployed, Extends.refl pp₀⟩,
      ⟨usk', pp₀, attrs, r, hb, h.deployed, Extends.refl pp₀, hminted, fun _ ha => ha⟩, rfl, rfl,
      fun _ hp => hp⟩
  · cases hopen

end Openable

/-! ## Every command keeps it -/

section Commands

variable {user id : String} {pp₀ : PublicParams G₁ G₂ Gₜ} {msk : MasterSecret F} {names : List String}
  {d₀ : Disk} {seen : Disk → Prop}

omit [Field F] [DecidableEq F] in
/-- What a decryption reads is not among the targets of commands that save neither parameters, nor keys of
the user, nor the package. -/
theorem not_writes_needed (hX : D.HexReadsBack) {call : Call F} (hcall : call.Regular cwd data)
    (hfiles : ∀ f ∈ call.files D, ¬ f.Needed user id) {op : FileOp}
    (hop : WritesTo (call.targets D cwd data) op) (f : File) (hf : f.Needed user id) :
    ¬ op.Writes (f.path data) := fun hwrite =>
  hfiles f ((path_mem_targets hX (hcall.avoids f)).1 (hop _ hwrite)) hf

variable (C A D data) in
/-- The history of a program that has read what disks hold on which the package is openable. -/
def ReadFrom (user id : String) (pp₀ : PublicParams G₁ G₂ Gₜ) (msk : MasterSecret F) (names : List String)
    (d₀ : Disk) (e : Event FileOp.Reply) : Prop :=
  e.op.IsRead → ∃ d, Openable C D data user id pp₀ msk names d₀ d ∧ (FileOp.handle e.op d).1 = e.reply

omit [DecidableEq F] in
/-- What a program knows of a file is so on such a disk. -/
theorem exists_of_knows {past : List (Event FileOp.Reply)} {p : Path} {φ : Disk → Prop}
    (h : Fs.Knows p φ past) (hpast : ∀ e ∈ past, ReadFrom C D data user id pp₀ msk names d₀ e) :
    ∃ d, Openable C D data user id pp₀ msk names d₀ d ∧ φ d := by
  obtain ⟨es, e, es', rfl, hlook, hφ, -⟩ := h
  obtain ⟨d, hd, hreply⟩ := hpast e (by simp) hlook.isRead
  exact ⟨d, hd, hφ d hreply⟩

variable (hC : C.ReadsBack) (hX : D.HexReadsBack) (hD : D.ReadsFaithfully)
include hC hX hD

omit [DecidableEq F] in
/-- **What is saved** keeps the package openable. -/
theorem Openable.save {command : Command} {past : List (Event FileOp.Reply)} {d : Disk}
    (h : Openable C D data user id pp₀ msk names d₀ d) (huser : '/' ∉ user.toList)
    (hpast : ∀ e ∈ past, ReadFrom C D data user id pp₀ msk names d₀ e) {f : File} (hf : f.Needed user id)
    (hpackage : f ≠ .sealedDoc id ∧ f ≠ .wrappedKey id)
    (hargs : ∀ args, command = .issue args → '/' ∉ args.user.toList) {b : Bytes}
    (hsaves : Saves C A D data command past f b) :
    Openable C D data user id pp₀ msk names d₀ (d.write (f.path data) b) := by
  have hloaded : ∀ {es : List (Event FileOp.Reply)} {pp : PublicParams G₁ G₂ Gₜ} {msk' : MasterSecret F},
      KnowsSetup C D data es pp msk' → (∀ e ∈ es, e ∈ past) →
        msk' = msk ∧ Deployed C msk pp ∧ Extends pp₀ pp := by
    intro es pp msk' hknows hes
    obtain ⟨d', hd', hsetup⟩ := exists_of_knows hknows fun e he => hpast e (hes e he)
    obtain ⟨pp', hsetup', hpp⟩ := hd'.exists_setupOn hC hX hD
    obtain ⟨rfl, rfl⟩ := Prod.mk.inj (Except.ok.inj (hsetup.symm.trans hsetup'))
    exact ⟨rfl, hpp⟩
  cases hsaves with
  | setup hknows calls =>
    obtain ⟨rfl, hpp, hext⟩ := hloaded hknows fun _ he => he
    exact h.saveSetup (hpp.registerAll calls) (hext.trans (extends_registerAll _ calls))
  | @key args existing pp msk' attrs r usk hcommand hknows hsaved hminted hmerged =>
    have hname := hargs args hcommand
    rw [Path.lastPart_of_no_slash hname] at hf ⊢
    obtain rfl : args.user = user := hf
    -- the key that was found has the names, and the parameters that were loaded extend the given ones
    obtain ⟨d', hd', hexisting⟩ := exists_of_knows hknows hpast
    obtain ⟨old, hold, pp', attrs', r', -, -, hminted', hnames⟩ := hd'.exists_userKeyOn hC hX hD huser
    rw [hold] at hexisting
    obtain rfl : existing = .ok old := (Except.ok.inj hexisting).symm
    obtain ⟨es, r₁, es', pp₁, rfl, hsetup, calls, rfl⟩ := hsaved
    obtain ⟨rfl, hpp, hext⟩ := hloaded hsetup fun e he => List.mem_append_left _ he
    refine h.saveKey (hpp.registerAll calls) (hext.trans (extends_registerAll _ calls)) hminted fun a ha => ?_
    exact (hminted.mem a).1 (hmerged old rfl a ((hminted'.mem a).2 (hnames a ha)))
  | sealedDoc id' b =>
    obtain rfl : id' = id := hf
    exact absurd rfl hpackage.1
  | wrappedKey id' hsaved hseals =>
    obtain rfl : id' = id := hf
    exact absurd rfl hpackage.2
  | manifest id' b | revokedAttribute hcommand hknows hfirst | revokedUser hcommand hknows hfirst =>
    exact hf.elim

/-- **Every command** keeps the package openable, but for a setup and one that stores a package of the id. -/
theorem guarantees_openable {call : Call F} (hcall : call.Regular cwd data) (hspares : call.Spares D id)
    (huser : '/' ∉ user.toList) :
    Fs.Guarantees (WritesTo (call.targets D cwd data)) seen (Openable C D data user id pp₀ msk names d₀)
      (call.command.run C A D cwd data call.fresh) fun _ => True := by
  have htargets := writesTo_run C A D cwd data call
  have hfew : (∀ f ∈ call.files D, ¬ f.Needed user id) →
      Fs.Guarantees (WritesTo (call.targets D cwd data)) seen (Openable C D data user id pp₀ msk names d₀)
        (call.command.run C A D cwd data call.fresh) fun _ => True := fun hfiles =>
    Cmd.Only.guarantees htargets (fun _ hop => hop) fun φ op d hop h =>
      h.wary op (not_writes_needed hX hcall hfiles hop) φ
  have hadds : call.command.Adds data →
      Fs.Guarantees (WritesTo (call.targets D cwd data)) seen (Openable C D data user id pp₀ msk names d₀)
        (call.command.run C A D cwd data call.fresh) fun _ => True := by
    intro hadds
    have hobeys := Prog.Obeys.and_only (obeys_run C A D cwd data hX hadds call.fresh) htargets
    refine Prog.Guarantees.mono (Q := fun o => ∃ past, _ ∧
      ∀ e ∈ past, ReadFrom C D data user id pp₀ msk names d₀ e) (Prog.Obeys.guarantees hobeys
      (fun _ _ hop => hop.2) ?_ fun e he => (by cases he)) (fun _ hop => hop) fun _ _ _ _ => trivial
    rintro past φ op d hpast ⟨hallowed, hop⟩ - - h
    refine ⟨?_, fun hread => ⟨d, h, by rw [FileOp.wary_of_isRead hread]⟩⟩
    by_cases hneeded : ∃ f : File, f.Needed user id ∧ op.Writes (f.path data)
    · obtain ⟨f, hf, hwrite⟩ := hneeded
      have hfile := (path_mem_targets hX (hcall.avoids f)).1 (hop _ hwrite)
      have hlog : f ≠ .audit := by
        rintro rfl
        exact hf
      have hpackage : f ≠ .sealedDoc id ∧ f ≠ .wrappedKey id := by
        rw [← not_or]
        rintro hid
        have hmem : File.sealedDoc id ∈ call.files D ∨ File.wrappedKey id ∈ call.files D := by
          rcases hid with rfl | rfl
          · exact Or.inl hfile
          · exact Or.inr hfile
        obtain ⟨hencrypt, hdrawn⟩ := of_package_mem_files hmem
        exact hspares hencrypt hdrawn
      obtain ⟨b, rfl, hsaves⟩ := hallowed.saves hlog hwrite
      cases φ with
      | none =>
        refine h.save hC hX hD huser hpast hf hpackage (fun args hcommand => ?_) hsaves
        rw [Call.Regular, hcommand] at hcall
        exact hcall
      | some φ => exact h
    · push Not at hneeded
      exact h.wary _ hneeded φ
  obtain ⟨command, fresh⟩ := call
  cases command with
  | setup => cases hcall
  | issue args => exact hadds ((isName_json hcall).leadsInto _)
  | encrypt file policy => exact hadds trivial
  | revokeAttribute attr => exact hadds trivial
  | revokeUser user' => exact hadds trivial
  | registerAuthority name controls => exact hfew (by simp [Call.files, File.Needed])
  | decrypt id' user' out => exact hfew (by simp [Call.files, File.Needed])

end Commands

/-! ## The command that decrypts -/

/-- A write of the file writes the bytes. -/
def OnlyWrites (p : Path) (b : Bytes) (op : FileOp) : Prop := op.Writes p → op = .write p b

section Decrypting

variable {user id out : String} {fresh : Fresh F}

theorem within_recordEvent (event : AuditEvent) : Cmd.Within 3 (recordEvent D data event) :=
  Cmd.Within.mapErr (((Fs.single_openAppend _).mapErr.within.bind fun _ =>
    (Fs.single_append _ _).mapErr.within.bind fun _ => (Fs.single_append _ _).mapErr.within))

omit [DecidableEq F] in
theorem within_get (store : PackageStore) : Cmd.Within 3 (store.get C D id) := by
  refine (Cmd.within_perform _).bind (n := 2) fun there => ?_
  split_ifs
  · exact Cmd.within_ofOutcome _
  · refine (Fs.within_readToString _).mapErr.bind (n := 1) fun text => ?_
    refine (Cmd.within_ofOutcome (n := 0) _).bind (n := 1) fun sealedDoc => ?_
    refine (Fs.within_readToString _).mapErr.bind (n := 0) fun text => ?_
    exact (Cmd.within_ofOutcome (n := 0) _).bind (n := 0) fun _ => Cmd.within_ofOutcome _

variable (C A D cwd data user id out fresh) in
/-- Decrypting makes at most ten accesses. -/
theorem within_cmdDecrypt : Cmd.Within 10 (cmdDecrypt C A D cwd data id user out fresh) := by
  have hload : ∀ {α : Type} (p : Path) (f : IoError → String) (g : String → Outcome String α),
      Cmd.Within 1 (Cmd.mapErr f (Fs.readToString p) >>= fun text => Cmd.ofOutcome (g text)) := fun p f g =>
    (Fs.within_readToString p).mapErr.bind (n := 0) fun _ => Cmd.within_ofOutcome _
  refine (hload _ _ _).bind (n := 9) fun setup => ?_
  refine (hload _ _ _).bind (n := 8) fun usk => ?_
  have hopen : Cmd.Within 1 (PackageStore.open (packagesDir data)) :=
    (Fs.single_createDirAll _).mapErr.within.bind (n := 0) fun _ => Cmd.within_ofOutcome _
  refine hopen.mapErr.bind (n := 7) fun store => ?_
  refine (within_get store).mapErr.bind (n := 4) fun package => ?_
  refine (Cmd.within_ofOutcome (n := 0) _).attempt.bind (n := 4) fun r => ?_
  cases r with
  | ok plaintext => exact (Fs.single_write _ _).mapErr.within.bind (n := 3) fun _ => within_recordEvent _
  | error e => exact (within_recordEvent _).bind (n := 1) fun _ => Cmd.within_ofOutcome _

variable (C A D cwd data user id out fresh) in
/-- Decrypting does not succeed without a write of the document. -/
theorem passes_cmdDecrypt :
    Cmd.Passes (·.Writes (cwd.join out)) (cmdDecrypt C A D cwd data id user out fresh) := by
  refine Cmd.passes_fail fun setup => Cmd.passes_fail fun usk => Cmd.passes_fail fun store =>
    Cmd.passes_fail fun package => Cmd.passes_fail fun r => ?_
  cases r with
  | ok plaintext =>
    exact Cmd.Passes.bind ((Fs.single_write _ _).mapErr.passes (W := (·.Writes (cwd.join out))) rfl) _
  | error e => exact Cmd.passes_fail fun _ _ h => (by cases h)

variable {pp₀ : PublicParams G₁ G₂ Gₜ} {msk : MasterSecret F} {names : List String} {d₀ : Disk}
  {seen : Disk → Prop} {P : FileOp → Prop} {package : EncryptedPackage G₁} {plaintext : Bytes}

omit [DecidableEq F] in
theorem succeeds_recordEvent (hopen : P (.openAppend (auditPath data)))
    (happend : ∀ b, P (.append (auditPath data) b)) (event : AuditEvent) :
    Fs.Succeeds P seen (Openable C D data user id pp₀ msk names d₀) (recordEvent D data event)
      fun _ => True := by
  have haudit : ∀ f : File, f.Needed user id → ¬ auditPath data = f.path data := by
    intro f hf heq
    rw [auditPath_eq] at heq
    obtain rfl := File.path_injective heq
    exact hf
  have hbytes : ∀ b, Fs.Succeeds P seen (Openable C D data user id pp₀ msk names d₀)
      (Cmd.mapErr AuditError.io (Fs.append (auditPath data) b)) fun _ => True := fun b =>
    (Fs.single_append _ b).mapErr.succeeds (happend b) fun d _ h =>
      h.wary (.append (auditPath data) b) haudit none
  refine Cmd.Succeeds.mapErr (Cmd.Succeeds.bind (Q := fun _ => True) ?_ fun _ _ =>
    (hbytes _).bind fun _ _ => hbytes _)
  exact (Fs.single_openAppend _).mapErr.succeeds hopen fun d _ h =>
    h.wary (.openAppend (auditPath data)) haudit none

omit [DecidableEq F] in
/-- **The package** is loaded as it was stored. -/
theorem succeeds_get (hreads : ∀ op : FileOp, op.IsRead → P op) (hid : Path.IsName id)
    (hstored : storedOn C D data id (d₀.createDirAll (packagesDir data)) = .ok package) :
    Fs.Succeeds P seen (Openable C D data user id pp₀ msk names d₀) ((packageStore data).get C D id)
      fun package' => package' = package := by
  have hdir := (PackageStore.of_packageOn_eq_ok C D (Outcome.mapErr_eq_ok.1 hstored)).1
  have hpackage : (packageStore data).packageOn C D id (d₀.createDirAll (packagesDir data)) = .ok package :=
    Outcome.mapErr_eq_ok.1 hstored
  rw [PackageStore.packageOn, if_neg (by rw [packageStore, hdir]; decide)] at hpackage
  obtain ⟨sealedText, hsealed, hpackage⟩ := bind_eq_ok.1 hpackage
  obtain ⟨sealedDoc, hdoc, hpackage⟩ := bind_eq_ok.1 hpackage
  obtain ⟨keyText, hkey, hpackage⟩ := bind_eq_ok.1 hpackage
  obtain ⟨keyCiphertext, hct, hret⟩ := bind_eq_ok.1 hpackage
  have hlooks : ∀ {p : Path} (op : FileOp), op.LooksAt p → P op := fun op hop => hreads op hop.isRead
  -- the files hold what they held at first
  have hread : ∀ {d : Disk} {f : File}, view data d f = view data d₀ f →
      d.read (f.path data) = (d₀.createDirAll (packagesDir data)).read (f.path data) :=
    fun hf => Disk.read_congr hf
  have hthere : Fs.Succeeds P seen (Openable C D data user id pp₀ msk names d₀)
      (Fs.exist ((packageStore data).packageDir id) : FileCmd StorageError Bool)
      fun there => there = true := by
    refine (Fs.shows_exist _).succeeds hlooks fun d _ h => ⟨_, rfl, h.has _ ?_⟩
    rwa [← packageStore, packageDir_eq hid, packagesDir_eq, has_packageDir_createDirAll (by simp),
      ← packageDir_eq hid] at hdir
  have hloadSealed : Fs.Succeeds P seen (Openable C D data user id pp₀ msk names d₀)
      (Cmd.mapErr StorageError.io (Fs.readToString ((packageStore data).sealedPath id)))
      fun text => text = sealedText := by
    refine (Fs.shows_readToString _).mapErr.succeeds hlooks fun d _ h => ⟨sealedText, ?_, rfl⟩
    rw [sealedPath_eq hid] at hsealed ⊢
    rw [hread h.sealedDoc]
    exact hsealed
  have hloadKey : Fs.Succeeds P seen (Openable C D data user id pp₀ msk names d₀)
      (Cmd.mapErr StorageError.io (Fs.readToString ((packageStore data).keyPath id)))
      fun text => text = keyText := by
    refine (Fs.shows_readToString _).mapErr.succeeds hlooks fun d _ h => ⟨keyText, ?_, rfl⟩
    rw [wrappedKeyPath_eq hid] at hkey ⊢
    rw [hread h.wrappedKey]
    exact hkey
  apply hthere.bind
  rintro _ rfl
  apply hloadSealed.bind
  rintro _ rfl
  apply (Cmd.succeeds_ofOutcome (Q := fun doc => doc = sealedDoc) hdoc rfl).bind
  rintro _ rfl
  apply hloadKey.bind
  rintro _ rfl
  apply (Cmd.succeeds_ofOutcome (Q := fun ct => ct = keyCiphertext) hct rfl).bind
  rintro _ rfl
  exact Cmd.succeeds_ofOutcome hret rfl

variable (hC : C.ReadsBack) (hX : D.HexReadsBack) (hD : D.ReadsFaithfully) (hA : A.Correct) {p : ℕ}
  [CharP F p] (hp : 2 ^ 64 < p)
include hC hX hD hA hp

/-- **Decrypting succeeds** among the others, and writes the document. -/
theorem succeeds_cmdDecrypt (huser : '/' ∉ user.toList) (hid : Path.IsName id)
    (hout : ¬ Own data (cwd.join out))
    (hopening : Opening C A D data id pp₀ msk names package plaintext d₀) :
    Fs.Succeeds (OnlyWrites (cwd.join out) plaintext) seen
      (Openable C D data user id pp₀ msk names d₀) (cmdDecrypt C A D cwd data id user out fresh)
      fun _ => True := by
  have hreads : ∀ op : FileOp, op.IsRead → OnlyWrites (cwd.join out) plaintext op := by
    intro op hop hwrite
    cases op <;> cases hop <;> cases hwrite
  have haudit : auditPath data ≠ cwd.join out := fun heq =>
    hout (heq ▸ auditPath_eq data ▸ File.audit.own data)
  have hsetup : Fs.Succeeds (OnlyWrites (cwd.join out) plaintext) seen
      (Openable C D data user id pp₀ msk names d₀) (loadSetup C D data) fun _ => True :=
    (shows_loadSetup C D data).succeeds (fun op hop => hreads op hop.isRead) fun d _ h => by
      obtain ⟨pp, hpp, -⟩ := h.exists_setupOn hC hX hD
      exact ⟨_, hpp, trivial⟩
  have hkey : Fs.Succeeds (OnlyWrites (cwd.join out) plaintext) seen
      (Openable C D data user id pp₀ msk names d₀) (loadUserKey C D data user)
      fun usk => ∀ pp : PublicParams G₁ G₂ Gₜ, Envelope.open C A D pp usk package = .ok plaintext :=
    (shows_loadUserKey C D data user).succeeds (fun op hop => hreads op hop.isRead) fun d _ h =>
      h.exists_opens hC hX hD hA hp huser hopening
  apply hsetup.bind
  rintro ⟨pp, msk'⟩ -
  apply hkey.bind
  intro usk hopens
  have hstore : Fs.Succeeds (OnlyWrites (cwd.join out) plaintext) seen
      (Openable C D data user id pp₀ msk names d₀) (PackageStore.open (packagesDir data))
      fun store => store = packageStore data := by
    refine Cmd.Succeeds.bind (Q := fun _ => True) ?_ fun _ _ => Cmd.succeeds_ofOutcome rfl rfl
    refine (Fs.single_createDirAll _).mapErr.succeeds (fun hwrite => hwrite.elim) fun d _ h => ?_
    exact h.wary (.createDirAll (packagesDir data)) (fun _ _ hwrite => hwrite.elim) none
  apply hstore.mapErr.bind
  rintro _ rfl
  apply (succeeds_get hreads hid hopening.stored).mapErr.bind
  rintro package rfl
  have hopened : Cmd.attempt (Cmd.ofOutcome (Envelope.open C A D pp usk package)) =
      (Cmd.ofOutcome (.ok (.ok plaintext)) : FileCmd String _) := by
    rw [hopens]
    rfl
  rw [hopened]
  refine Cmd.Succeeds.bind (Q := fun r => r = .ok plaintext) (Cmd.succeeds_ofOutcome rfl rfl) ?_
  rintro _ rfl
  refine Cmd.Succeeds.bind (Q := fun _ => True) ?_ fun _ _ =>
    succeeds_recordEvent (fun h => absurd h haudit) (fun _ h => absurd h haudit) _
  refine (Fs.single_write _ _).mapErr.succeeds (fun _ => rfl) fun d _ h => ?_
  refine h.wary (.write (cwd.join out) plaintext) (fun f _ hwrite => ?_) none
  exact hout ((show cwd.join out = f.path data from hwrite) ▸ f.own data)

end Decrypting

/-! ## Runs -/

/-- Bytes that are written to a file stay there, if nothing else is written to it. -/
theorem OnlyWrites.lookup_wary {p : Path} {b : Bytes} {op : FileOp} (h : OnlyWrites p b op) {d : Disk}
    (hd : d.files.lookup p = some b) (φ : Option Fault) :
    (FileOp.wary φ op d).2.files.lookup p = some b := by
  by_cases hwrite : op.Writes p
  · obtain rfl := h hwrite
    cases φ with
    | none => exact Disk.lookup_write_self d p b
    | some φ => exact hd
  · rw [FileOp.lookup_wary hwrite, hd]

section Runs

variable {ι : Type} [DecidableEq ι] (hC : C.ReadsBack) (hX : D.HexReadsBack) (hD : D.ReadsFaithfully)
  (hA : A.Correct) {p : ℕ} [CharP F p] (hp : 2 ^ 64 < p) {user id : String} (huser : '/' ∉ user.toList)
  (hid : Path.IsName id) {calls : ι → Call F} (hcalls : ∀ i, (calls i).Regular cwd data)
  (hspares : ∀ i, (calls i).Spares D id) {pp₀ : PublicParams G₁ G₂ Gₜ} {msk : MasterSecret F}
  {names : List String} {package : EncryptedPackage G₁} {plaintext : Bytes} {d₀ : Disk}
  (hopening : Opening C A D data id pp₀ msk names package plaintext d₀)
  (hopenable : Openable C D data user id pp₀ msk names d₀ d₀)
include hC hX hD hA hp huser hid hcalls hspares hopening hopenable

/-- **The package is open at any time.** -/
theorem Openable.decrypts_of_passed (sched : List (ι × Option Fault)) :
    ∀ d ∈ Prog.passed FileOp.wary sched (programs C A D cwd data calls) d₀,
      Decrypts C A D cwd data user id plaintext d := by
  intro d hd
  have hprograms : ∀ j ∈ sched.map Prod.fst, Prog.Guarantees FileOp.wary (fun _ => True)
      (WritesTo ((calls j).targets D cwd data)) (fun _ => True) (Openable C D data user id pp₀ msk names d₀)
      (programs C A D cwd data calls j) fun o => ∀ a, o = .ok a → True := fun j _ =>
    guarantees_openable hC hX hD (hcalls j) (hspares j) huser
  obtain ⟨hstates, -⟩ := Prog.Guarantees.interleaveFaulty hprograms (fun _ _ => trivial) (fun _ _ => trivial)
    hopenable
  exact decrypts_of_decryptOutcome ((hstates d hd).decryptOutcome_eq hC hX hD hA hp huser hid hopening)

/-- **Who decrypts it gets the document**, after ten accesses that do not fail. -/
theorem Openable.decrypts_of_count {sched : List (ι × Option Fault)} {i : ι} {out : String}
    (hcommand : (calls i).command = .decrypt id user out) (hfaults : ∀ t ∈ sched, t.1 = i → t.2 = none)
    (hothers : ∀ j id' user' out', (calls j).command = .decrypt id' user' out' → j ≠ i →
      cwd.join out' ≠ cwd.join out) (hcount : 10 ≤ (sched.map Prod.fst).count i) :
    let run := Prog.interleaveFaulty FileOp.wary sched (programs C A D cwd data calls) d₀
    run.1 i = Prog.pure (.ok ()) ∧ run.2.files.lookup (cwd.join out) = some plaintext := by
  intro run
  have hout : ¬ Own data (cwd.join out) := by
    have hregular := hcalls i
    rwa [Call.Regular, hcommand] at hregular
  have hself : Fs.Succeeds (OnlyWrites (cwd.join out) plaintext) (fun _ => True)
      (Openable C D data user id pp₀ msk names d₀) (programs C A D cwd data calls i) fun _ => True := by
    unfold programs
    rw [hcommand]
    exact succeeds_cmdDecrypt hC hX hD hA hp huser hid hout hopening
  have hwithin : Cmd.Within 10 (programs C A D cwd data calls i) := by
    unfold programs
    rw [hcommand]
    exact within_cmdDecrypt C A D cwd data user id out _
  have hpasses : Cmd.Passes (·.Writes (cwd.join out)) (programs C A D cwd data calls i) := by
    unfold programs
    rw [hcommand]
    exact passes_cmdDecrypt C A D cwd data user id out _
  -- the others do not write the document's file
  have hprograms : ∀ j ∈ sched.map Prod.fst, Prog.Guarantees FileOp.wary (fun φ => j = i → φ = none)
      (OnlyWrites (cwd.join out) plaintext) (fun _ => True) (Openable C D data user id pp₀ msk names d₀)
      (programs C A D cwd data calls j) fun _ => True := by
    intro j _
    by_cases hji : j = i
    · subst hji
      exact Prog.Guarantees.of_faults (Prog.Guarantees.mono hself (fun _ hop => hop) fun _ _ => trivial)
        fun _ hφ => hφ rfl
    · refine Prog.Guarantees.of_faults (Prog.Guarantees.mono
        (guarantees_openable hC hX hD (hcalls j) (hspares j) huser) (fun op hop hwrite => ?_)
        fun _ _ => trivial) fun _ _ => trivial
      rcases (hcalls j).of_mem_targets hX (hop _ hwrite) with hown | ⟨id', user', out', hj, heq⟩
      · exact absurd hown hout
      · exact absurd heq.symm (hothers j id' user' out' hj hji)
  have hsched : ∀ t ∈ sched, t.1 = i → t.2 = none := hfaults
  obtain ⟨-, hleft⟩ := Prog.Guarantees.interleaveFaulty hprograms hsched (fun _ _ => trivial) hopenable
  have hend := hleft i _ _ (Prog.Guarantees.of_faults hself fun _ hφ => hφ rfl)
  have hdone := Prog.Passes.interleaveFaulty (J := fun d => d.files.lookup (cwd.join out) = some plaintext)
    hprograms hsched (fun _ _ => trivial) hopenable (fun _ _ φ _ hop hd => hop.lookup_wary hd φ)
    (fun op φ d hop hwrite hφ => by
      obtain rfl := hop hwrite
      rw [hφ rfl]
      exact Disk.lookup_write_self d _ plaintext) (Or.inl hpasses)
  have hbound := Prog.Within.interleaveFaulty FileOp.wary sched d₀ hwithin
  rw [Nat.sub_eq_zero_of_le hcount] at hbound
  obtain ⟨o, ho⟩ := hbound.exists_pure
  rw [ho] at hend hdone
  obtain ⟨a, rfl, -⟩ := hend
  exact ⟨ho, hdone.resolve_left fun h => h a rfl⟩

end Runs

/-- **Access is kept while commands overlap**: if a user can decrypt a package after a run of commands, then
also at any time while other commands work on the directory, however their accesses alternate, whatever
writes of theirs fail and whoever is cut off. A command among them that decrypts the package has returned
after ten accesses that do not fail, and the document is in its file. There is no setup among the commands,
they work on their own files and draw other ids than the package's, and no other decryption writes to
the same file. -/
theorem decrypts_among_others {ι : Type} [DecidableEq ι] (hC : C.ReadsBack) (hX : D.HexReadsBack)
    (hD : D.ReadsFaithfully) (hA : A.Correct) {p : ℕ} [CharP F p] (hp : 2 ^ 64 < p) {d₀ : Disk}
    {before : List (Call F)} (hbefore : ∀ call ∈ before, call.Tidy cwd data) {user id : String}
    (huser : '/' ∉ user.toList) (hid : Path.IsName id)
    (hsetup : SetUpFor C A D cwd data {user} {id} before d₀) {out : String} {fresh : Fresh F}
    (h : (Fs.exec (cmdDecrypt C A D cwd data id user out fresh)
      (runAll C A D cwd data before d₀)).1 = .ok ())
    {calls : ι → Call F} (hcalls : ∀ i, (calls i).Regular cwd data) (hspares : ∀ i, (calls i).Spares D id) :
    ∃ plaintext, ∀ sched : List (ι × Option Fault),
      (∀ d ∈ Prog.passed FileOp.wary sched (programs C A D cwd data calls) (runAll C A D cwd data before d₀),
        Decrypts C A D cwd data user id plaintext d) ∧
      ∀ i out, (calls i).command = .decrypt id user out → (∀ t ∈ sched, t.1 = i → t.2 = none) →
        (∀ j id' user' out', (calls j).command = .decrypt id' user' out' → j ≠ i →
          cwd.join out' ≠ cwd.join out) → 10 ≤ (sched.map Prod.fst).count i →
        let run := Prog.interleaveFaulty FileOp.wary sched (programs C A D cwd data calls)
          (runAll C A D cwd data before d₀)
        run.1 i = Prog.pure (.ok ()) ∧ run.2.files.lookup (cwd.join out) = some plaintext := by
  obtain ⟨plaintext, hdecrypts⟩ := exec_cmdDecrypt_eq_ok.1 h
  obtain ⟨pp, msk, hlinked⟩ := hsetup.linked hC hX hD.shallow hbefore
  obtain ⟨names, package, hopening, hopenable⟩ :=
    Openable.of_linked hC hD hX hA hp hlinked huser hid hdecrypts
  exact ⟨plaintext, fun sched => ⟨hopenable.decrypts_of_passed hC hX hD hA hp huser hid hcalls hspares
    hopening sched, fun i out hcommand hfaults hothers hcount => hopenable.decrypts_of_count hC hX hD hA hp
      huser hid hcalls hspares hopening hcommand hfaults hothers hcount⟩⟩

/-- Alice decrypts the package while she is issued a further attribute. -/
def exampleOverlap (decrypts : Bool) : Call Scalar :=
  if decrypts then ⟨.decrypt exampleId "alice" "copy", exampleFresh⟩
  else ⟨.issue (issueToAlice "b"), exampleFresh⟩

/-- They take turns. -/
def exampleTurns : List (Bool × Option Fault) :=
  (List.replicate 10 [(true, none), (false, none)]).flatten

theorem decrypts_among_others_alice : ∃ plaintext,
    let run := Prog.interleaveFaulty FileOp.wary exampleTurns
      (programs exponents boxes serdeJsonUnlimited exampleCwd exampleData exampleOverlap)
      (runAll exponents boxes serdeJsonUnlimited exampleCwd exampleData (exampleRun ++ [exampleEncrypt])
        emptyDisk)
    run.1 true = Prog.pure (.ok ()) ∧ run.2.files.lookup (exampleCwd.join "copy") = some plaintext := by
  have halice : '/' ∉ "alice".toList := by decide
  have htidy : ∀ call ∈ exampleRun ++ [exampleEncrypt], call.Tidy exampleCwd exampleData := by
    refine List.forall_mem_cons.2 ⟨fun h => absurd rfl h, List.forall_mem_cons.2 ⟨fun _ => trivial,
      List.forall_mem_cons.2 ⟨fun _ => halice, List.forall_mem_singleton.2 fun _ => ?_⟩⟩⟩
    exact (by decide : ("a" : String).length < 2 ^ 64)
  have hsetup : SetUpFor exponents boxes serdeJsonUnlimited exampleCwd exampleData {"alice"} {exampleId}
      (exampleRun ++ [exampleEncrypt]) emptyDisk := by
    refine ⟨[], exampleFresh, exampleRun.tail ++ [exampleEncrypt], rfl, ?_, fun _ _ => rfl, fun _ _ => rfl⟩
    simp [exampleRun, exampleEncrypt]
  have hcalls : ∀ i, (exampleOverlap i).Regular exampleCwd exampleData := by
    refine Bool.forall_bool.2 ⟨halice, ?_⟩
    rintro ⟨name, -, rest, heq⟩
    rw [show exampleCwd.join "copy" = ⟨["home", "copy"]⟩ from rfl] at heq
    simp [Path.under, exampleData] at heq
  have hspares : ∀ i, (exampleOverlap i).Spares serdeJsonUnlimited exampleId := by
    refine Bool.forall_bool.2 ⟨?_, ?_⟩
    · rintro ⟨path, policy, h⟩
      cases h
    · rintro ⟨path, policy, h⟩
      cases h
  obtain ⟨plaintext, hopens⟩ := decryptOutcome_exampleSealed
  obtain ⟨plaintext', hruns⟩ := decrypts_among_others readsBack_exponents hexReadsBack_serdeJsonUnlimited
    readsBack_serdeJsonUnlimited.faithfully correct_boxes (by norm_num : 2 ^ 64 < scalarModulus) htidy halice
    (isName_newId hexReadsBack_serdeJsonUnlimited exampleStamp) hsetup
    (exec_cmdDecrypt_eq_ok.2 ⟨plaintext, hopens⟩ : (Fs.exec (cmdDecrypt exponents boxes
      serdeJsonUnlimited exampleCwd exampleData exampleId "alice" "copy" exampleFresh) _).1 = .ok ())
    hcalls hspares
  refine ⟨plaintext', (hruns exampleTurns).2 true "copy" rfl (fun t ht _ => ?_)
    (fun j id user out hj hne => ?_) (by decide)⟩
  · obtain ⟨turns, hturns, ht⟩ := List.mem_flatten.1 ht
    rw [List.eq_of_mem_replicate hturns] at ht
    simp only [List.mem_cons, List.not_mem_nil, or_false] at ht
    rcases ht with rfl | rfl <;> rfl
  · obtain rfl : j = false := Bool.eq_false_of_not_eq_true hne
    cases hj

end SecureABE.Cli
