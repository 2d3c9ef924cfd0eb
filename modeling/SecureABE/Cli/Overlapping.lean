import SecureABE.Cli.Accesses
import SecureABE.Cli.Linked
import SecureABE.Cli.Provenance
import SecureABE.Core.Totality
import SecureABE.Foundations.Guarantees

/-!
# Commands that overlap

Several commands work on one directory at the same time, their accesses in any order; writes may fail, and
commands may be cut off. Updates are lost then, and keys and packages with them. What is not lost is the
protection of the documents: a command that decrypts writes a document only for a user who was issued
attributes that satisfy the policy, at the epochs that it was encrypted with (`entitled_of_discloses`).

`Traced` is the invariant that each command keeps: every key file has names that the user was issued, and
every wrapped key is under the tree of a policy that it was encrypted with.
-/

namespace SecureABE.Cli

open Rust SecureABE.Core SecureABE.Policy SecureABE.Revocation SecureABE.Authorities SecureABE.Audit
  SecureABE.Envelope SecureABE.Storage

variable {F G₁ G₂ Gₜ : Type} [Field F] [DecidableEq F] [AddCommGroup G₁] [Module F G₁]
  [AddCommGroup G₂] [Module F G₂] [AddCommGroup Gₜ] [Module F Gₜ]
variable (C : Curve F G₁ G₂ Gₜ) (A : Cipher) (D : Codec) (cwd data : Path)

/-! ## What is traced -/

/-- The command issues an attribute to a user, at an epoch. The registry, the revocation list that gives
the epoch and the one that the user is looked up in are of disks that are seen, three of them perhaps. -/
def Call.Entitles (seen : Disk → Prop) (call : Call F) (user a : String) (epoch : UInt64) : Prop :=
  ∃ args registry rl rl' claims, call.command = .issue args ∧ args.user = user ∧
    (∃ d, seen d ∧ registryOn D data d = .ok registry) ∧
    (∃ d, seen d ∧ revocationOn D data d = .ok rl) ∧ rl.currentEpoch a = epoch ∧
    (∃ d, seen d ∧ revocationOn D data d = .ok rl') ∧ rl'.isUserRevoked user = false ∧
    parseClaims args.flags args.texts args.numerics = .ok claims ∧
    ∃ claim ∈ claims, a ∈ claim.resolve ∧
      ∃ authority, registry.authorities.lookup args.authority = some authority ∧
        (authority.controls = [] ∨ claim.keyPrefix ∈ authority.controls)

/-- The command encrypts under an id and a policy, with the epochs of a list on a disk that is seen. -/
def Call.Deposits (seen : Disk → Prop) (call : Call F) (id : String) (tree : AccessTree)
    (rl : RevocationList) : Prop :=
  ∃ file policy, call.command = .encrypt file policy ∧ newId D call.fresh.stamp = id ∧
    parse policy = .ok tree ∧ ∃ d, seen d ∧ revocationOn D data d = .ok rl

/-- The wrapped key that a disk holds under an id. -/
def wrappedOn (id : String) (d : Disk) : Outcome StorageError (AbeCiphertext G₁) := do
  let text ← Outcome.mapErr .io (Fs.textOf (d.read ((packageStore data).keyPath id)))
  PackageStore.decodeKey C D text

/-- The disks that are seen have a key of the user and a wrapped key under the id. Of the commands that have
started, one encrypted under the id, and its policy with its epochs is the tree of the wrapped key; and
others issued to the user attributes that satisfy the policy, at these epochs, and that are in the key. -/
def Entitled {ι : Type} (seen : Disk → Prop) (calls : ι → Call F) (started : List ι)
    (id user : String) : Prop :=
  ∃ usk ct, (∃ d, seen d ∧ userKeyOn C D data user d = .ok usk) ∧
    (∃ d, seen d ∧ wrappedOn C D data id d = .ok ct) ∧
    ∃ j ∈ started, ∃ tree rl, (calls j).Deposits D data seen id tree rl ∧ ct.tree = retagTree tree rl ∧
      ∃ attrs : List String, tree.isSatisfiedBy attrs = true ∧ ∀ a ∈ attrs, rl.tag a ∈ usk.attributes ∧
        ∃ k ∈ started, (calls k).Entitles D data seen user a (rl.currentEpoch a)

/-- The files that say who may open what. -/
def File.Vouches : File → Prop
  | .key _ | .wrappedKey _ => True
  | _ => False

/-- The keys on the disk have granted names, and the wrapped keys are under the trees of deposits. -/
structure Traced (granted : String → String → Prop) (deposited : String → AccessTree → RevocationList → Prop)
    (d : Disk) : Prop where
  keys : KeysFrom C D data granted d
  packages : ∀ id b, view data d (.wrappedKey id) = some b → ∃ tree rl, deposited id tree rl ∧
    ∃ package pp plaintext n, b = PackageStore.keyBytes C D package ∧ n < 2 ^ 64 ∧ tree.Fits n ∧
      Seals C A D pp (retagTree tree rl) plaintext package

/-- A command that works on its own files: users and packages are named without slashes, a decrypted
document does not replace a file of the deployment, and a policy has a length that a string can have. -/
def Call.Contained (call : Call F) : Prop :=
  match call.command with
  | .issue args => '/' ∉ args.user.toList
  | .encrypt _ policy => policy.length < 2 ^ 64
  | .decrypt id user out => Path.IsName id ∧ '/' ∉ user.toList ∧ ¬ Own data (cwd.join out)
  | _ => True

/-- A command that is about to write a whole file, or has returned. -/
def Discloses (x : FileCmd String Unit) : Prop :=
  x = Prog.pure (.ok ()) ∨ ∃ p b next, x = Prog.step (.write p b) next

/-- No access changes what says who may open what. -/
def Elsewhere (op : FileOp) : Prop := ∀ f : File, f.Vouches → ¬ op.Writes (f.path data)

variable {C A D cwd data} {granted : String → String → Prop}
  {deposited : String → AccessTree → RevocationList → Prop} {seen : Disk → Prop} {P : FileOp → Prop}

theorem elsewhere_write {f : File} (hf : ¬ f.Vouches) (b : Bytes) :
    Elsewhere data (.write (f.path data) b) := by
  intro g hg hwrite
  rw [File.path_injective (show f.path data = g.path data from hwrite)] at hf
  exact hf hg

theorem elsewhere_openAppend : Elsewhere data (.openAppend (auditPath data)) := by
  intro g hg hwrite
  rw [auditPath_eq] at hwrite
  rw [← File.path_injective (show File.audit.path data = g.path data from hwrite)] at hg
  exact hg

theorem elsewhere_append (b : Bytes) : Elsewhere data (.append (auditPath data) b) :=
  fun g hg hwrite => elsewhere_openAppend g hg hwrite

namespace Traced

variable {d d' : Disk}

omit [DecidableEq F]

theorem of_view (h : Traced C A D data granted deposited d)
    (hview : ∀ f : File, f.Vouches → view data d' f = view data d f) :
    Traced C A D data granted deposited d' where
  keys := by
    intro user huser b hb
    rw [hview (.key user) trivial] at hb
    exact h.keys user huser b hb
  packages := by
    intro id b hb
    rw [hview (.wrappedKey id) trivial] at hb
    exact h.packages id b hb

theorem elsewhere (h : Traced C A D data granted deposited d) {op : FileOp} (hop : Elsewhere data op)
    (φ : Option Fault) : Traced C A D data granted deposited (FileOp.wary φ op d).2 :=
  h.of_view fun f hf => FileOp.lookup_wary (hop f hf) φ d

/-- A key with granted names is saved. -/
theorem saveKey (h : Traced C A D data granted deposited d) (user : String) {usk : UserSecretKey G₂}
    (husk : ∀ t ∈ usk.attributes, granted user t) :
    Traced C A D data granted deposited (d.write ((File.key user).path data) (userKeyBytes C D usk)) where
  keys := by
    intro user' huser b hb
    rw [view_write, Function.update_apply] at hb
    split_ifs at hb with heq
    · obtain rfl : user' = user := by simpa using heq
      exact ⟨usk, (Option.some.inj hb).symm, husk⟩
    · exact h.keys user' huser b hb
  packages := by
    intro id b hb
    rw [view_write, Function.update_of_ne (by simp)] at hb
    exact h.packages id b hb

/-- The wrapped key of a deposit is saved. -/
theorem saveWrappedKey (h : Traced C A D data granted deposited d) {id : String} {tree : AccessTree}
    {rl : RevocationList} (hdeposit : deposited id tree rl) {n : ℕ} (hn : n < 2 ^ 64) (hfits : tree.Fits n)
    {pp : PublicParams G₁ G₂ Gₜ} {plaintext : Bytes} {package : EncryptedPackage G₁}
    (hseals : Seals C A D pp (retagTree tree rl) plaintext package) :
    Traced C A D data granted deposited
      (d.write ((File.wrappedKey id).path data) (PackageStore.keyBytes C D package)) where
  keys := by
    intro user huser b hb
    rw [view_write, Function.update_of_ne (by simp)] at hb
    exact h.keys user huser b hb
  packages := by
    intro id' b hb
    rw [view_write, Function.update_apply] at hb
    split_ifs at hb with heq
    · obtain rfl : id' = id := by simpa using heq
      exact ⟨tree, rl, hdeposit, package, pp, plaintext, n, (Option.some.inj hb).symm, hn, hfits, hseals⟩
    · exact h.packages id' b hb

/-- **The names of a key that is loaded** are granted. -/
theorem of_userKeyOn (h : Traced C A D data granted deposited d) (hC : C.ReadsBack) (hX : D.HexReadsBack)
    (hD : D.ReadsShallow) {user : String} (huser : '/' ∉ user.toList) {usk : UserSecretKey G₂}
    (husk : userKeyOn C D data user d = .ok usk) : ∀ t ∈ usk.attributes, granted user t := by
  cases hfile : view data d (.key user) with
  | none =>
    rw [userKeyOn_of_view_none huser hfile] at husk
    cases husk
  | some b =>
    obtain ⟨usk', rfl, hgranted⟩ := h.keys user huser b hfile
    rw [userKeyOn_of_view huser hC hX hD hfile] at husk
    obtain rfl := Except.ok.inj husk
    exact hgranted

/-- **A wrapped key that is loaded** was deposited under its tree. -/
theorem of_wrappedOn (h : Traced C A D data granted deposited d) (hC : C.ReadsBack) (hX : D.HexReadsBack)
    (hD : D.ReadsFaithfully) {id : String} (hid : Path.IsName id) {ct : AbeCiphertext G₁}
    (hwrapped : wrappedOn C D data id d = .ok ct) :
    ∃ tree rl, deposited id tree rl ∧ ∃ pp dek s rng n, n < 2 ^ 64 ∧ tree.Fits n ∧
      Encrypted C A D pp dek (retagTree tree rl) s rng ct := by
  obtain ⟨text, htext, hct⟩ := bind_eq_ok.1 hwrapped
  have htext := Outcome.mapErr_eq_ok.1 htext
  rw [wrappedKeyPath_eq hid] at htext
  cases hfile : view data d (.wrappedKey id) with
  | none =>
    rw [Disk.read, show d.files.lookup ((File.wrappedKey id).path data) = none from hfile] at htext
    cases htext
  | some b =>
    obtain ⟨tree, rl, hdeposit, package, pp, plaintext, n, rfl, hn, hfits, hseals⟩ := h.packages id b hfile
    rw [Disk.read_of_lookup hfile, PackageStore.keyBytes, Fs.textOf_utf8] at htext
    obtain rfl := Except.ok.inj htext
    have hreadable := readable_of_seals hn (hfits.of_gates_eq (gates_retagTree tree rl)) hseals
    have hreadKey : D.fromStr (ciphertextToJson C D package.keyCiphertext) =
        .ok (ciphertextDto C D package.keyCiphertext).toJson := by
      cases hread : D.fromStr (ciphertextToJson C D package.keyCiphertext) with
      | error msg =>
        rw [PackageStore.decodeKey, ciphertextFromJson, hread] at hct
        cases hct
      | ok j => rw [hD.eq_of_pretty _ j hread]
    rw [PackageStore.decodeKey, ciphertextFromJson_toJson hC hX hreadable.1 hreadable.2 hreadKey] at hct
    obtain rfl := Except.ok.inj hct
    obtain ⟨dek, s, rng, henc, -⟩ := hseals
    exact ⟨tree, rl, hdeposit, pp, dek, s, rng, n, hn, hfits, henc⟩

end Traced

/-! ## Parts of commands -/

section Parts

variable {ε α : Type}

section

omit [DecidableEq F]

/-- A part that does not change what says who may open what. -/
theorem guarantees_elsewhere {x : FileCmd ε α} {V : α → Prop}
    (hx : Cmd.Only (fun op => Elsewhere data op ∧ P op) x V) :
    Fs.Guarantees P seen (Traced C A D data granted deposited) x V :=
  Cmd.Only.guarantees hx (fun _ hop => hop.2) fun φ _ _ hop h => h.elsewhere hop.1 φ

/-- A part that only reads. -/
theorem guarantees_reads (hP : ∀ op : FileOp, op.IsRead → P op) {x : FileCmd ε α} {V : α → Prop}
    (hx : Fs.OnlyReads x V) : Fs.Guarantees P seen (Traced C A D data granted deposited) x V := by
  refine guarantees_elsewhere (hx.mono fun op hop => ⟨fun f _ hwrite => ?_, hP op hop⟩)
  cases op <;> simp_all [FileOp.IsRead, FileOp.Writes]

theorem guarantees_createDirAll {p : Path} (hP : P (.createDirAll p)) :
    Fs.Guarantees P seen (Traced C A D data granted deposited)
      (Cmd.mapErr IoError.toText (Fs.createDirAll p)) fun _ => True :=
  guarantees_elsewhere ((Fs.single_createDirAll p).mapErr.only ⟨fun _ _ => id, hP⟩)

theorem guarantees_open {p : Path} (hP : P (.createDirAll p)) :
    Fs.Guarantees P seen (Traced C A D data granted deposited)
      (Cmd.mapErr StorageError.toText (PackageStore.open p)) fun store => store = ⟨p⟩ := by
  refine Cmd.Guarantees.mapErr (Cmd.Guarantees.bind (Q := fun _ => True) ?_ fun _ _ =>
    Cmd.guarantees_pure rfl)
  exact guarantees_elsewhere ((Fs.single_createDirAll p).mapErr.only ⟨fun _ _ => id, hP⟩)

/-- Another file of the deployment is written. -/
theorem guarantees_writeOther {f : File} (hf : ¬ f.Vouches) {p : Path} (hp : p = f.path data) {b : Bytes}
    {g : IoError → ε} (hP : P (.write p b)) :
    Fs.Guarantees P seen (Traced C A D data granted deposited) (Cmd.mapErr g (Fs.write p b)) fun _ => True :=
  guarantees_elsewhere ((Fs.single_write p b).mapErr.only ⟨hp ▸ elsewhere_write hf b, hP⟩)

theorem guarantees_recordEvent (hopen : P (.openAppend (auditPath data)))
    (happend : ∀ b, P (.append (auditPath data) b)) (event : AuditEvent) :
    Fs.Guarantees P seen (Traced C A D data granted deposited) (recordEvent D data event) fun _ => True := by
  refine guarantees_elsewhere (Cmd.Only.mapErr (Cmd.Only.bind (V := fun _ => True) ?_ fun _ _ => ?_))
  · exact (Fs.single_openAppend _).mapErr.only ⟨elsewhere_openAppend, hopen⟩
  have hbytes : ∀ b, Cmd.Only (fun op => Elsewhere data op ∧ P op)
      (Cmd.mapErr AuditError.io (Fs.append (auditPath data) b)) fun _ => True := fun b =>
    (Fs.single_append _ b).mapErr.only ⟨elsewhere_append b, happend b⟩
  exact (hbytes _).bind fun _ _ => hbytes _

/-- **A key that is loaded** has granted names. -/
theorem guarantees_loadUserKey (hC : C.ReadsBack) (hX : D.HexReadsBack) (hD : D.ReadsShallow)
    (hP : ∀ op : FileOp, op.IsRead → P op) {user : String} (huser : '/' ∉ user.toList) :
    Fs.Guarantees P seen (Traced C A D data granted deposited) (loadUserKey C D data user)
      fun usk => (∃ d, seen d ∧ userKeyOn C D data user d = .ok usk) ∧ ∀ t ∈ usk.attributes, granted user t :=
  ((shows_loadUserKey C D data user).guarantees fun op hop => hP op hop.isRead).mono
    fun _ ⟨d, hd, h, husk⟩ => ⟨⟨d, hd, husk⟩, h.of_userKeyOn hC hX hD huser husk⟩

/-- A revocation list that is loaded is one that a disk holds. -/
theorem guarantees_loadRevocation (hP : ∀ op : FileOp, op.IsRead → P op) :
    Fs.Guarantees P seen (Traced C A D data granted deposited) (loadRevocation D data) fun rl =>
      (∃ d, seen d ∧ revocationOn D data d = .ok rl) ∧ rl.path = revocationPath data :=
  (Fs.guarantees_of_knows (knows_loadRevocation D data []) fun op hop => hP op hop.isRead).mono
    fun _ ⟨⟨d, hd, _, hrl⟩, hpath⟩ => ⟨⟨d, hd, hrl⟩, hpath⟩

end

variable (D data) in
/-- A registry that is loaded is what a disk holds, with or without a file. -/
theorem knows_loadRegistry (past : List (Event FileOp.Reply)) :
    Cmd.Obeys (fun _ op => op.LooksAt (authoritiesPath data)) (loadRegistry D data)
      (fun past registry => Fs.Knows (authoritiesPath data)
        (fun d => registryOn D data d = .ok registry) past ∧ True) past := by
  have hexist : Cmd.Obeys (fun _ op => op.LooksAt (authoritiesPath data))
      (Fs.exist (authoritiesPath data) : FileCmd String Bool) (fun past there => there = false →
        Fs.Knows (authoritiesPath data) (fun d => d.has (authoritiesPath data) = false) past) past :=
    Cmd.obeys_perform rfl fun r hr =>
      knows_concat (e := ⟨.exist (authoritiesPath data), r⟩) past rfl fun d hreply => hreply.trans hr
  refine hexist.bind fun past there hthere => Cmd.Obeys.ite (fun hfalse => ?_) fun _ => ?_
  · refine Cmd.obeys_pure ⟨(hthere hfalse).mono fun d hd => ?_, trivial⟩
    rw [registryOn, if_pos hd]
  · have hread := (Fs.shows_readToString (authoritiesPath data)).mapErr (g := IoError.toText)
    apply Prog.Obeys.mono (hread.bind_ofOutcome
      (g := fun s => Outcome.ofExcept id (D.fromStr s >>= AuthorityRegistry.fromJson)) past)
    rintro past o ho registry rfl
    refine ⟨ho.mono fun d hd => ?_, trivial⟩
    obtain ⟨s, hs, -⟩ := bind_eq_ok.1 hd
    obtain ⟨b, hb, -⟩ := bind_eq_ok.1 (Outcome.mapErr_eq_ok.1 hs)
    rw [registryOn, Disk.has_of_read (Fs.replied_eq_ok.1 hb), if_neg (by decide)]
    exact hd

omit [DecidableEq F]

theorem guarantees_loadRegistry (hP : ∀ op : FileOp, op.IsRead → P op) :
    Fs.Guarantees P seen (Traced C A D data granted deposited) (loadRegistry D data) fun registry =>
      ∃ d, seen d ∧ registryOn D data d = .ok registry :=
  (Fs.guarantees_of_knows (knows_loadRegistry D data []) fun op hop => hP op hop.isRead).mono
    fun _ ⟨⟨d, hd, _, hregistry⟩, _⟩ => ⟨d, hd, hregistry⟩

/-- **A package that is loaded** was deposited under its tree. -/
theorem guarantees_get (hC : C.ReadsBack) (hX : D.HexReadsBack) (hD : D.ReadsFaithfully)
    (hP : ∀ op : FileOp, op.IsRead → P op) {id : String} (hid : Path.IsName id) :
    Fs.Guarantees P seen (Traced C A D data granted deposited) ((packageStore data).get C D id) fun package =>
      (∃ d, seen d ∧ wrappedOn C D data id d = .ok package.keyCiphertext) ∧
        ∃ tree rl, deposited id tree rl ∧ ∃ pp dek s rng n, n < 2 ^ 64 ∧ tree.Fits n ∧
          Encrypted C A D pp dek (retagTree tree rl) s rng package.keyCiphertext := by
  refine (guarantees_reads hP (Fs.onlyReads_exist _)).bind fun _ _ => Cmd.Guarantees.ite
    (fun _ => Cmd.guarantees_ofOutcome fun _ h => by cases h) fun _ => ?_
  refine (guarantees_reads hP (Fs.onlyReads_readToString _).mapErr).bind fun _ _ => ?_
  refine (Cmd.guarantees_ofOutcome (Q := fun _ => True) fun _ _ => trivial).bind fun sealedDoc _ => ?_
  refine (Cmd.Guarantees.mapErr ((Fs.shows_readToString _).guarantees fun op hop => hP op hop.isRead)).bind ?_
  rintro text ⟨d, hd, h, htext⟩
  apply (Cmd.guarantees_ofOutcome (Q := fun ct => wrappedOn C D data id d = .ok ct) fun ct hct => ?_).bind
  · intro ct hct
    exact Cmd.guarantees_pure ⟨⟨d, hd, hct⟩, h.of_wrappedOn hC hX hD hid hct⟩
  · rw [wrappedOn, htext]
    exact hct

end Parts

/-! ## The commands -/

section Commands

section

omit [DecidableEq F]

theorem guarantees_cmdSetup (fresh : Fresh F) :
    Fs.Guarantees (fun _ => True) seen (Traced C A D data granted deposited) (cmdSetup C D data fresh)
      fun _ => True := by
  refine (guarantees_createDirAll trivial).bind fun _ _ => ?_
  refine (guarantees_writeOther (f := .setup) id (setupPath_eq data) trivial).bind fun _ _ => ?_
  refine (guarantees_writeOther (f := .authorities) id (authoritiesPath_eq data) trivial).bind fun _ _ => ?_
  exact (guarantees_open trivial).bind fun _ _ => guarantees_recordEvent trivial (fun _ => trivial) _

theorem guarantees_cmdRegisterAuthority (name controls : String) :
    Fs.Guarantees (fun _ => True) seen (Traced C A D data granted deposited)
      (cmdRegisterAuthority D data name controls) fun _ => True :=
  (guarantees_reads (fun _ _ => trivial) (onlyReads_loadRegistry D data)).bind fun _ _ =>
    guarantees_writeOther (f := .authorities) id (authoritiesPath_eq data) trivial

theorem guarantees_cmdRevokeAttribute (attr : String) (fresh : Fresh F) :
    Fs.Guarantees (fun _ => True) seen (Traced C A D data granted deposited)
      (cmdRevokeAttribute D data attr fresh) fun _ => True := by
  apply (guarantees_reads (fun _ _ => trivial) (onlyReads_loadRevocation D data)).bind
  intro rl hpath
  refine Cmd.Guarantees.bind (Q := fun _ => True) (Cmd.Guarantees.mapErr (guarantees_elsewhere ?_))
    fun _ _ => guarantees_recordEvent trivial (fun _ => trivial) _
  have hwrite : Elsewhere data
      (.write (rl.bumped attr).path (RevocationList.encode D (rl.bumped attr).state)) := by
    rw [show (rl.bumped attr).path = File.revocation.path data from hpath.trans (revocationPath_eq data)]
    exact elsewhere_write id _
  exact only_revokeAttribute D ((Fs.single_write _ _).mapErr.only ⟨hwrite, trivial⟩)

theorem guarantees_cmdRevokeUser (user : String) (fresh : Fresh F) :
    Fs.Guarantees (fun _ => True) seen (Traced C A D data granted deposited)
      (cmdRevokeUser D data user fresh) fun _ => True := by
  apply (guarantees_reads (fun _ _ => trivial) (onlyReads_loadRevocation D data)).bind
  intro rl hpath
  refine Cmd.Guarantees.bind (Q := fun _ => True) (Cmd.Guarantees.mapErr (guarantees_elsewhere ?_))
    fun _ _ => guarantees_recordEvent trivial (fun _ => trivial) _
  have hwrite : Elsewhere data
      (.write (rl.withUser user).path (RevocationList.encode D (rl.withUser user).state)) := by
    rw [rl.path_withUser, hpath, revocationPath_eq]
    exact elsewhere_write id _
  exact only_revokeUser D ((Fs.single_write _ _).mapErr.only ⟨hwrite, trivial⟩)

end

variable (hC : C.ReadsBack) (hX : D.HexReadsBack) (hD : D.ReadsFaithfully)
include hC hX hD

/-- **Issuing** saves a key for names that were granted before or are granted by the command. -/
theorem guarantees_cmdIssue {args : IssueArgs} (huser : '/' ∉ args.user.toList) {fresh : Fresh F}
    (hgranted : ∀ (a : String) (rl : RevocationList),
      (Call.mk (.issue args) fresh).Entitles D data seen args.user a (rl.currentEpoch a) →
        granted args.user (rl.tag a)) :
    Fs.Guarantees (fun _ => True) seen (Traced C A D data granted deposited) (cmdIssue C D data args fresh)
      fun _ => True := by
  have hprepare : Fs.Guarantees (fun _ => True) seen (Traced C A D data granted deposited)
      (prepareIssue C D data args fresh) fun key => ∀ t ∈ key.usk.attributes, granted args.user t := by
    apply (guarantees_reads (fun _ _ => trivial) (onlyReads_loadSetup C D data)).bind
    rintro ⟨pp, msk⟩ -
    apply (guarantees_loadRegistry fun _ _ => trivial).bind
    intro registry hregistry
    apply (guarantees_loadRevocation fun _ _ => trivial).bind
    rintro revocation ⟨hrevocation, -⟩
    apply (guarantees_reads (fun _ _ => trivial) (Fs.onlyReads_readToString _).attempt).bind
    intro _ _
    apply (guarantees_loadRevocation fun _ _ => trivial).bind
    rintro revCheck ⟨hrevCheck, -⟩
    apply Cmd.Guarantees.ite (fun _ => Cmd.guarantees_ofOutcome fun key hkey => (by cases hkey))
    intro hrevoked
    apply (Cmd.guarantees_ofOutcome (Q := fun claims => parseClaims args.flags args.texts args.numerics =
      .ok claims) fun _ h => h).bind
    intro claims hclaims
    apply (Cmd.guarantees_ofOutcome (Q := fun st => grantClaims registry revocation args.authority claims
      { pp, flatAttrs := [], rng := fresh.scalars } = .ok st) fun _ h => h).bind
    intro st hst
    have hexisting : Fs.Guarantees (fun _ => True) seen (Traced C A D data granted deposited)
        (Cmd.attempt (loadUserKey C D data args.user) : FileCmd String _)
        fun existing => ∀ usk, existing = .ok usk → ∀ t ∈ usk.attributes, granted args.user t := by
      refine ((shows_loadUserKey C D data args.user).attempt.guarantees fun _ _ => trivial).mono ?_
      rintro existing ⟨d, -, h, hcaught⟩ usk rfl
      exact h.of_userKeyOn hC hX hD.shallow huser (Cmd.caught_eq_ok_ok.1 hcaught)
    apply hexisting.bind
    intro existing hold
    refine Cmd.guarantees_ofOutcome fun key hkey t ht => ?_
    obtain ⟨-, -, -, hflat, -, r, hminted⟩ := mintKey_eq_ok hkey
    rw [hminted.mem, hflat, mem_mergeExisting] at ht
    rcases ht with ht | ⟨usk, hexisting, ht⟩
    · -- a name of a claim
      obtain ⟨hpermitted, rfl⟩ := grantClaims_eq_ok.1 hst
      rw [(exists_registerAll_foldl_add revocation (resolved claims) _).1, List.nil_append,
        mem_map_tag_resolved] at ht
      obtain ⟨claim, hclaim, a, ha, rfl⟩ := ht
      exact hgranted a revocation ⟨args, registry, revocation, revCheck, claims, rfl, rfl, hregistry, hrevocation,
        rfl, hrevCheck, by simpa using hrevoked, hclaims, claim, hclaim, ha,
        checkPermission_eq_ok.1 (hpermitted claim hclaim)⟩
    · exact hold usk hexisting t ht
  apply hprepare.bind
  intro key hkey
  refine (guarantees_writeOther (f := .setup) id (setupPath_eq data) trivial).bind fun _ _ => ?_
  refine Cmd.Guarantees.bind (Q := fun _ => True) ?_ fun _ _ =>
    guarantees_recordEvent trivial (fun _ => trivial) _
  refine (guarantees_createDirAll trivial).bind fun _ _ => Fs.guarantees_write trivial fun d _ h => ?_
  rw [keyFile_eq huser]
  exact h.saveKey args.user hkey

omit hC hD [DecidableEq F] in
/-- **Encrypting** saves a wrapped key under the tree of the policy. -/
theorem guarantees_cmdEncrypt {file policy : String} (hpolicy : policy.length < 2 ^ 64) {fresh : Fresh F}
    (hdeposited : ∀ tree rl, (Call.mk (.encrypt file policy) fresh).Deposits D data seen (newId D fresh.stamp)
      tree rl → deposited (newId D fresh.stamp) tree rl) :
    Fs.Guarantees (fun _ => True) seen (Traced C A D data granted deposited)
      (cmdEncrypt C A D cwd data file policy fresh) fun _ => True := by
  have hprepare : Fs.Guarantees (fun _ => True) seen (Traced C A D data granted deposited)
      (prepareEncrypt C D data policy fresh) fun prepared => ∃ tree rl,
        deposited (newId D fresh.stamp) tree rl ∧ tree.Fits policy.length ∧
          prepared.tree = retagTree tree rl := by
    apply (guarantees_reads (fun _ _ => trivial) (onlyReads_loadSetup C D data)).bind
    rintro ⟨pp, msk⟩ -
    apply (guarantees_loadRevocation fun _ _ => trivial).bind
    rintro rl ⟨hrl, -⟩
    apply (Cmd.guarantees_ofOutcome (Q := fun tree => parse policy = .ok tree)
      fun _ h => Outcome.ofExcept_eq_ok.1 h).bind
    intro tree htree
    exact Cmd.guarantees_pure ⟨tree, rl, hdeposited tree rl ⟨file, policy, rfl, rfl, htree, hrl⟩,
      parse_fits htree, rfl⟩
  apply hprepare.bind
  rintro prepared ⟨tree, rl, hdeposit, hfits, htree⟩
  refine (guarantees_writeOther (f := .setup) id (setupPath_eq data) trivial).bind fun _ _ => ?_
  refine (guarantees_reads (fun _ _ => trivial) (Fs.onlyReads_read _).mapErr).bind fun plaintext _ => ?_
  apply (Cmd.guarantees_ofOutcome (Q := fun sealed => Seals C A D prepared.pp (retagTree tree rl) plaintext
    sealed.1) fun sealed h => htree ▸ seals_of_seal_eq_ok (Outcome.mapErr_eq_ok.1 h)).bind
  rintro ⟨package, rng⟩ hseals
  apply (guarantees_open trivial).bind
  rintro store rfl
  refine Cmd.Guarantees.bind (Q := fun _ => True) (Cmd.Guarantees.mapErr ?_) fun _ _ =>
    guarantees_recordEvent trivial (fun _ => trivial) _
  have hid := isName_newId hX fresh.stamp
  refine Cmd.Guarantees.bind (Q := fun _ => True) ?_ fun _ _ => ?_
  · exact guarantees_elsewhere ((Fs.single_createDirAll _).mapErr.only ⟨fun _ _ => id, trivial⟩)
  refine (guarantees_writeOther (f := .sealedDoc _) id (sealedPath_eq hid) trivial).bind fun _ _ => ?_
  refine Cmd.Guarantees.bind (Q := fun _ => True) (Fs.guarantees_write trivial fun d _ h => ?_) fun _ _ => ?_
  · change Traced C A D data granted deposited (d.write ((packageStore data).keyPath _) _)
    rw [wrappedKeyPath_eq hid]
    exact h.saveWrappedKey hdeposit hpolicy hfits hseals
  refine (guarantees_writeOther (f := .manifest _) id (manifestPath_eq hid) trivial).bind fun _ _ => ?_
  exact Cmd.guarantees_pure trivial

/-- **Decrypting** writes a document only if the granted names satisfy the tree of the deposit. -/
theorem guarantees_cmdDecrypt {p : ℕ} [CharP F p] (hp : 2 ^ 64 < p) {id user out : String}
    (hid : Path.IsName id) (huser : '/' ∉ user.toList) (hout : ¬ Own data (cwd.join out)) {entitled : Prop}
    (hentitled : ∀ (tree : AccessTree) (rl : RevocationList) (usk : UserSecretKey G₂) (ct : AbeCiphertext G₁),
      (∃ d, seen d ∧ userKeyOn C D data user d = .ok usk) → (∃ d, seen d ∧ wrappedOn C D data id d = .ok ct) →
      (∀ t ∈ usk.attributes, granted user t) → deposited id tree rl → ct.tree = retagTree tree rl →
      (retagTree tree rl).isSatisfiedBy usk.attributeNames = true → entitled) (fresh : Fresh F) :
    Fs.Guarantees (fun op => ∀ q b, op = .write q b → entitled) seen
      (Traced C A D data granted deposited) (cmdDecrypt C A D cwd data id user out fresh)
      fun _ => entitled := by
  have hreads : ∀ op : FileOp, op.IsRead → ∀ q b, op = .write q b → entitled := by
    rintro op hop q b rfl
    cases hop
  apply (guarantees_reads hreads (onlyReads_loadSetup C D data)).bind
  rintro ⟨pp, msk⟩ -
  apply (guarantees_loadUserKey hC hX hD.shallow hreads huser).bind
  rintro usk ⟨hkey, husk⟩
  apply (guarantees_open fun _ _ h => by cases h).bind
  rintro store rfl
  apply (guarantees_get hC hX hD hreads hid).mapErr.bind
  rintro package ⟨hwrapped, tree, rl, hdeposit, pp₀, dek, s, rng, n, hn, hfits, henc⟩
  have hopens : Fs.Guarantees (fun op => ∀ q b, op = .write q b → entitled) seen
      (Traced C A D data granted deposited)
      (Cmd.attempt (Cmd.ofOutcome (Envelope.open C A D pp usk package)) : FileCmd String _)
      fun r => ∀ plaintext, r = .ok plaintext → entitled := by
    refine Prog.Guarantees.bind (Q := fun o => o = Envelope.open C A D pp usk package) rfl ?_
    rintro o ho r hr plaintext rfl
    rw [Cmd.caught_eq_ok_ok.1 hr] at ho
    obtain ⟨dek', hdek, -⟩ := bind_eq_ok.1 ho.symm
    refine hentitled tree rl usk _ hkey hwrapped husk hdeposit henc.tree_eq ?_
    apply isSatisfiedBy_of_decryptKey (IndicesDistinct.of_charP hp.le) _ henc (Outcome.mapErr_eq_ok.1 hdek)
    exact (hfits.of_gates_eq (gates_retagTree tree rl)).childrenLt hn
  apply hopens.bind
  rintro (e | plaintext) hr
  · refine Cmd.Guarantees.bind (Q := fun _ => True) ?_ fun _ _ =>
      Cmd.guarantees_ofOutcome fun _ h => (by cases h)
    exact guarantees_recordEvent (fun _ _ h => by cases h) (fun _ _ _ h => by cases h) _
  · have h := hr plaintext rfl
    refine Cmd.Guarantees.bind (Q := fun _ => True) ?_ fun _ _ =>
      (guarantees_recordEvent (fun _ _ _ => h) (fun _ _ _ _ => h) _).mono fun _ _ => h
    refine guarantees_elsewhere ((Fs.single_write _ _).mapErr.only ⟨fun f _ hwrite => ?_, fun _ _ _ => h⟩)
    have heq : cwd.join out = f.path data := hwrite
    exact hout (heq ▸ f.own data)

/-- **One command** keeps the traces, if what it grants is granted and what it deposits is deposited. -/
theorem guarantees_run {p : ℕ} [CharP F p] (hp : 2 ^ 64 < p) {call : Call F} (hcall : call.Contained cwd data)
    (hgranted : ∀ (user a : String) (rl : RevocationList),
      call.Entitles D data seen user a (rl.currentEpoch a) → granted user (rl.tag a))
    (hdeposited : ∀ id tree rl, call.Deposits D data seen id tree rl → deposited id tree rl) :
    Fs.Guarantees (fun _ => True) seen (Traced C A D data granted deposited)
      (call.command.run C A D cwd data call.fresh) fun _ => True := by
  obtain ⟨command, fresh⟩ := call
  cases command with
  | setup => exact guarantees_cmdSetup fresh
  | registerAuthority name controls => exact guarantees_cmdRegisterAuthority name controls
  | issue args => exact guarantees_cmdIssue hC hX hD hcall (hgranted args.user)
  | encrypt file policy => exact guarantees_cmdEncrypt hX hcall (hdeposited _)
  | decrypt id user out =>
    obtain ⟨hid, huser, hout⟩ := hcall
    have hdecrypts : Fs.Guarantees (fun op => ∀ q b, op = .write q b → True) seen
        (Traced C A D data granted deposited) (cmdDecrypt C A D cwd data id user out fresh) fun _ => True :=
      guarantees_cmdDecrypt hC hX hD hp hid huser hout (fun _ _ _ _ _ _ _ _ _ _ => trivial) fresh
    exact Prog.Guarantees.mono hdecrypts (fun _ _ => trivial) fun _ _ _ _ => trivial
  | revokeAttribute attr => exact guarantees_cmdRevokeAttribute attr fresh
  | revokeUser user => exact guarantees_cmdRevokeUser user fresh

end Commands

/-! ## Runs -/

section Runs

variable {ι : Type} [DecidableEq ι]

variable (C A D cwd data) in
/-- The programs of the commands. -/
def programs (calls : ι → Call F) (i : ι) : FileCmd String Unit :=
  (calls i).command.run C A D cwd data (calls i).fresh

/-- A command that has started issues the tag to the user. -/
def GrantedIn (D : Codec) (data : Path) (seen : Disk → Prop) (calls : ι → Call F) (started : List ι)
    (user t : String) : Prop :=
  ∃ k ∈ started, ∃ (a : String) (rl : RevocationList),
    t = rl.tag a ∧ (calls k).Entitles D data seen user a (rl.currentEpoch a)

/-- A command that has started encrypts under the id. -/
def DepositedIn (D : Codec) (data : Path) (seen : Disk → Prop) (calls : ι → Call F) (started : List ι)
    (id : String) (tree : AccessTree) (rl : RevocationList) : Prop :=
  ∃ j ∈ started, (calls j).Deposits D data seen id tree rl

omit [DecidableEq F] [DecidableEq ι] in
/-- **What the traces come to**: a key with granted names that satisfy a deposited tree. -/
theorem entitled_of_satisfied {calls : ι → Call F} {started : List ι} {id user : String} {tree : AccessTree}
    {rl : RevocationList} {usk : UserSecretKey G₂} {ct : AbeCiphertext G₁}
    (hkey : ∃ d, seen d ∧ userKeyOn C D data user d = .ok usk)
    (hwrapped : ∃ d, seen d ∧ wrappedOn C D data id d = .ok ct)
    (husk : ∀ t ∈ usk.attributes, GrantedIn D data seen calls started user t)
    (hdeposited : DepositedIn D data seen calls started id tree rl) (htree : ct.tree = retagTree tree rl)
    (hsat : (retagTree tree rl).isSatisfiedBy usk.attributeNames = true) :
    Entitled C D data seen calls started id user := by
  obtain ⟨j, hj, hdeposit⟩ := hdeposited
  obtain ⟨attrs, hattrs, htags⟩ := exists_satisfied_of_retagTree hsat
  refine ⟨usk, ct, hkey, hwrapped, j, hj, tree, rl, hdeposit, htree, attrs, hattrs, fun a ha => ?_⟩
  have hmem : rl.tag a ∈ usk.attributes := HashMap.mem_keys_iter.1 (htags a ha)
  obtain ⟨k, hk, a', rl', htag, hentitles⟩ := husk (rl.tag a) hmem
  obtain ⟨rfl, hepoch⟩ := tag_eq_tag.1 htag
  rw [hepoch]
  exact ⟨hmem, k, hk, hentitles⟩

/-- **No disclosure without entitlement**: however the accesses of the commands alternate, whatever writes
fail and whoever is cut off, a command that decrypts writes a document, or returns, only if its user was
issued attributes that satisfy the policy of the document, at the epochs of its encryption. -/
theorem entitled_of_discloses (hC : C.ReadsBack) (hX : D.HexReadsBack) (hD : D.ReadsFaithfully) {p : ℕ}
    [CharP F p] (hp : 2 ^ 64 < p) {calls : ι → Call F} {sched : List (ι × Option Fault)}
    (hcalls : ∀ i, (calls i).Contained cwd data) {d : Disk}
    (hkeys : ∀ user, '/' ∉ user.toList → view data d (.key user) = none)
    (hpackages : ∀ id, view data d (.wrappedKey id) = none) {i : ι} {id user out : String}
    (hcommand : (calls i).command = .decrypt id user out)
    (hdiscloses : Discloses
      ((Prog.interleaveFaulty FileOp.wary sched (programs C A D cwd data calls) d).1 i)) :
    Entitled C D data (· ∈ Prog.passed FileOp.wary sched (programs C A D cwd data calls) d) calls
      (sched.map Prod.fst) id user := by
  let seen : Disk → Prop := fun d' => d' ∈ Prog.passed FileOp.wary sched (programs C A D cwd data calls) d
  let granted := GrantedIn D data seen calls (sched.map Prod.fst)
  let deposited := DepositedIn D data seen calls (sched.map Prod.fst)
  have hprograms : ∀ j ∈ sched.map Prod.fst, Fs.Guarantees (fun _ => True) seen
      (Traced C A D data granted deposited) (programs C A D cwd data calls j) fun _ => True := by
    intro j hj
    exact guarantees_run hC hX hD hp (hcalls j) (fun user a rl h => ⟨j, hj, a, rl, rfl, h⟩)
      fun id tree rl h => ⟨j, hj, h⟩
  have hstart : Traced C A D data granted deposited d := by
    refine ⟨fun user huser b hb => ?_, fun id b hb => ?_⟩
    · rw [hkeys user huser] at hb
      cases hb
    · rw [hpackages id] at hb
      cases hb
  -- the guarantee of the command that decrypts, with what it has to prove as the permission to write
  have hdecrypts : Fs.Guarantees
      (fun op => ∀ q b, op = .write q b → Entitled C D data seen calls (sched.map Prod.fst) id user) seen
      (Traced C A D data granted deposited) (programs C A D cwd data calls i)
      fun _ => Entitled C D data seen calls (sched.map Prod.fst) id user := by
    have hcontained := hcalls i
    rw [Call.Contained, hcommand] at hcontained
    obtain ⟨hid, huser, hout⟩ := hcontained
    unfold programs
    rw [hcommand]
    exact guarantees_cmdDecrypt hC hX hD hp hid huser hout
      (fun _ _ _ _ hkey hwrapped => entitled_of_satisfied hkey hwrapped) _
  obtain ⟨-, hleft⟩ := Prog.Guarantees.interleaveFaulty hprograms (fun _ _ => trivial)
    (fun _ h => h) hstart
  have hrest := hleft i _ _ hdecrypts
  rcases hdiscloses with hok | ⟨q, b, next, hwrite⟩
  · rw [hok] at hrest
    exact hrest () rfl
  · rw [hwrite] at hrest
    exact hrest.1 q b rfl

end Runs

/-- A setup, an authority, a key for Alice, a package, and Alice decrypts it. -/
def exampleCommands (i : Fin 5) : Call Scalar :=
  (exampleRun ++ [exampleEncrypt, ⟨.decrypt exampleId "alice" "copy", exampleFresh⟩]).get i

/-- Alice decrypts, with the attribute that she was issued. -/
theorem entitled_of_discloses_exampleCommands : ∃ sched : List (Fin 5 × Option Fault),
    Discloses ((Prog.interleaveFaulty FileOp.wary sched
      (programs exponents boxes serdeJsonUnlimited exampleCwd exampleData exampleCommands) emptyDisk).1 4) ∧
    Entitled exponents serdeJsonUnlimited exampleData (· ∈ Prog.passed FileOp.wary sched
      (programs exponents boxes serdeJsonUnlimited exampleCwd exampleData exampleCommands) emptyDisk)
      exampleCommands (sched.map Prod.fst) exampleId "alice" := by
  obtain ⟨w, registry, h, -, ht, hbeta⟩ := exists_represents_exampleEncrypt
  obtain ⟨rawTree, hparse, hexec⟩ := exec_cmdDecrypt_of_represents exampleCwd
    readsBack_exponents hexReadsBack_serdeJsonUnlimited readsBack_serdeJsonUnlimited.shallow correct_boxes
    (by norm_num : 2 ^ 64 < scalarModulus) hbeta h ht (lastStored_example _)
    (fun _ _ => readsBack_serdeJsonUnlimited.pretty _) "alice" (by decide)
    (isSome_keyFile_example h ht) "copy" exampleFresh
  obtain rfl : AccessTree.leaf "a" = rawTree := Except.ok.inj hparse
  rw [entitled_example, if_pos (by decide), decided] at hexec
  obtain ⟨sched, -, -, hdone⟩ := Prog.exists_interleaveFaulty_foldl FileOp.wary_none [0, 1, 2, 3, 4]
    (by decide)
    (programs exponents boxes serdeJsonUnlimited exampleCwd exampleData exampleCommands) emptyDisk
  have hends := hdone [0, 1, 2, 3] 4 [] rfl
  have hdiscloses : Discloses ((Prog.interleaveFaulty FileOp.wary sched
      (programs exponents boxes serdeJsonUnlimited exampleCwd exampleData exampleCommands) emptyDisk).1 4) := by
    rw [hends]
    exact Or.inl (congrArg Prog.pure (congrArg Prod.fst hexec))
  have hout : ¬ Own exampleData (exampleCwd.join "copy") := by
    rintro ⟨name, -, rest, heq⟩
    rw [show exampleCwd.join "copy" = ⟨["home", "copy"]⟩ from rfl] at heq
    simp [Path.under, exampleData] at heq
  have hcontained : ∀ call ∈ exampleRun ++ [exampleEncrypt, ⟨.decrypt exampleId "alice" "copy", exampleFresh⟩],
      call.Contained exampleCwd exampleData := by
    have halice : '/' ∉ ("alice" : String).toList := by decide
    have hpolicy : ("a" : String).length < 2 ^ 64 := by decide
    simp only [exampleRun, exampleEncrypt, List.cons_append, List.nil_append, List.forall_mem_cons,
      Call.Contained, issueToAlice]
    exact ⟨trivial, trivial, halice, hpolicy,
      ⟨isName_newId hexReadsBack_serdeJsonUnlimited exampleStamp, halice, hout⟩, by simp⟩
  exact ⟨sched, hdiscloses, entitled_of_discloses readsBack_exponents hexReadsBack_serdeJsonUnlimited
    readsBack_serdeJsonUnlimited.faithfully (by norm_num : 2 ^ 64 < scalarModulus)
    (fun i => hcontained _ (List.get_mem _ i)) (fun _ _ => rfl) (fun _ => rfl) rfl hdiscloses⟩

end SecureABE.Cli
