import SecureABE.Envelope.Binding
import SecureABE.Envelope.Opening
import SecureABE.Storage.Interrupted

/-!
# The policy that is shown

A package has its policy summary in two files. The one in `sealed.json` is associated data of the
document, and a package is not opened with another one. `list` shows the one in `manifest.json`, which
nothing protects: of a package that can still be opened, it shows the summary it was sealed under exactly
if the manifest agrees with the sealed document (`shows_iff`).
-/

namespace SecureABE.Storage

open Rust SecureABE.Core SecureABE.Envelope SecureABE.Policy SecureABE.Cli

variable {F G₁ G₂ Gₜ : Type} [Field F] [DecidableEq F] [AddCommGroup G₁] [Module F G₁]
  [AddCommGroup G₂] [Module F G₂] [AddCommGroup Gₜ] [Module F Gₜ]
variable (C : Curve F G₁ G₂ Gₜ) (A : Cipher) (D : Codec) (store : PackageStore)

/-- The three files of a package are changed in any way, and nothing else is. -/
structure Tampered (id : String) (d d' : Disk) : Prop where
  dirs : d'.dirs = d.dirs
  others : ∀ q, q ≠ store.sealedPath id → q ≠ store.keyPath id → q ≠ store.manifestPath id →
    d'.files.lookup q = d.files.lookup q

/-- The sealed document of a package. -/
def sealedOn (id : String) (d : Disk) : Outcome StorageError SealedDocument := do
  let text ← Outcome.mapErr .io (Fs.textOf (d.read (store.sealedPath id)))
  PackageStore.decodeSealed D text

/-- The manifest of a package has the summary of the sealed document and names the directory. -/
def ManifestAgrees (id : String) (d : Disk) : Prop :=
  ∀ manifest sealedDoc, manifestOn D (store.packageDir id) d = .ok manifest →
    sealedOn D store id d = .ok sealedDoc →
      manifest.policySummary = sealedDoc.policySummary ∧
        store.packageDir manifest.id = store.packageDir id

variable {C A D store}

omit [DecidableEq F] in
theorem sealedOn_of_packageOn {id : String} {d : Disk} {package : EncryptedPackage G₁}
    (h : store.packageOn C D id d = .ok package) : sealedOn D store id d = .ok package.sealedDoc := by
  unfold PackageStore.packageOn at h
  split_ifs at h with hdir
  · cases h
  · obtain ⟨text, htext, h⟩ := bind_eq_ok.1 h
    obtain ⟨sealedDoc, hsealed, h⟩ := bind_eq_ok.1 h
    obtain ⟨keyText, -, h⟩ := bind_eq_ok.1 h
    obtain ⟨keyCiphertext, -, hret⟩ := bind_eq_ok.1 h
    obtain rfl := Except.ok.inj hret
    rw [sealedOn, htext, ok_bind, hsealed]

omit [DecidableEq F] in
/-- A directory whose package was put is an entry of the root. -/
theorem mem_withManifest_of_tampered (hX : D.HexReadsBack) {originalFilename : String}
    {package : EncryptedPackage G₁} {stamp : Stamp} {d d₁ d₂ : Disk} {id : String}
    (hput : Fs.exec (store.put C D originalFilename package stamp) d = (.ok id, d₁))
    (htampered : Tampered store id d₁ d₂) (hthere : d₂.has (store.manifestPath id) = true) :
    store.root ∈ d₂.dirs ∧ store.packageDir id ∈ withManifest d₂ (d₂.entries store.root) := by
  obtain ⟨hid, hd⟩ := Prod.mk.inj ((store.exec_put C D originalFilename package stamp d).symm.trans hput)
  obtain rfl := Except.ok.inj hid
  subst hd
  have hname := isName_newId hX stamp
  have hancestor : ∀ cs, cs <+: [newId D stamp] → store.root.under cs ∈ d₂.dirs := by
    intro cs hcs
    have hmem : store.root.under cs ∈ (d.createDirAll (store.packageDir (newId D stamp))).dirs := by
      rw [packageDir_under hname]
      exact mem_dirs_createDirAll.2 (Or.inr (Path.under_mem_ancestors.2 hcs))
    rw [htampered.dirs]
    exact hmem
  refine ⟨Path.under_nil store.root ▸ hancestor [] List.nil_prefix, List.mem_filter.2 ⟨?_, hthere⟩⟩
  rw [packageDir_under hname]
  exact under_mem_entries (hancestor _ (List.prefix_refl _))

/-- **What is shown of a package that can be opened.** After any change of its files that keeps the two
symmetric ciphertexts, the line that `list` shows for the directory has the summary that was sealed and
names the directory exactly if the manifest agrees with the sealed document and the directory. -/
theorem shows_iff {p : ℕ} [CharP F p] (hp : 2 ^ 64 < p) (hA : A.Binding) (hD : D.PrintsCompact)
    (hX : D.HexReadsBack) {pp : PublicParams G₁ G₂ Gₜ} {plaintext : Bytes} {tree : AccessTree}
    {policySummary : String} {dek : ByteArr 32} {fileNonce wrapNonce : ByteArr 12} {rng rng' : Rng F}
    {package : EncryptedPackage G₁}
    (hseal : Envelope.seal C A D pp plaintext tree policySummary dek fileNonce wrapNonce rng =
      .ok (package, rng'))
    {originalFilename : String} {stamp : Stamp} {d d₁ d₂ : Disk} {id : String}
    (hput : Fs.exec (store.put C D originalFilename package stamp) d = (.ok id, d₁))
    (htampered : Tampered store id d₁ d₂) {altered : EncryptedPackage G₁}
    (hget : (Fs.exec (store.get C D id) d₂).1 = .ok altered)
    (hlen : altered.keyCiphertext.tree.ChildrenLt (2 ^ 64))
    (hwrapped : altered.keyCiphertext.wrappedKey.ciphertext = package.keyCiphertext.wrappedKey.ciphertext)
    (hfile : altered.sealedDoc.fileCiphertext = package.sealedDoc.fileCiphertext)
    {pp' : PublicParams G₁ G₂ Gₜ} {usk : UserSecretKey G₂} {opened : Bytes}
    (hopen : Envelope.open C A D pp' usk altered = .ok opened) {out : List PackageSummary}
    (hlist : (Fs.exec (store.list D) d₂).1 = .ok out)
    (hthere : d₂.has (store.manifestPath id) = true) :
    ∃ line ∈ out, shownOn D (store.packageDir id) d₂ = .ok line ∧
      ((line.policySummary = policySummary ∧ store.packageDir line.id = store.packageDir id) ↔
        ManifestAgrees D store id d₂) := by
  have hsummary := policySummary_of_open_eq_ok hp hA hD hseal hlen hwrapped hfile hopen
  rw [(store.reads_get C D _ _).outcome] at hget
  rw [(store.reads_list D _).outcome] at hlist
  have hsealed := sealedOn_of_packageOn hget
  obtain ⟨hroot, hdir⟩ := mem_withManifest_of_tampered hX hput htampered hthere
  obtain ⟨line, hmem, hline⟩ := PackageStore.exists_line_of_listedOn hroot hlist hdir
  obtain ⟨manifest, hmanifest, hret⟩ := bind_eq_ok.1 hline
  obtain rfl := Except.ok.inj hret
  refine ⟨manifest.summary, hmem, hline, ?_, ?_⟩
  · rintro ⟨hshown, hid⟩ manifest' sealedDoc hmanifest' hsealed'
    obtain rfl := Except.ok.inj (hmanifest.symm.trans hmanifest')
    obtain rfl := Except.ok.inj (hsealed.symm.trans hsealed')
    exact ⟨hshown.trans hsummary.symm, hid⟩
  · intro hagrees
    obtain ⟨hshown, hid⟩ := hagrees manifest altered.sealedDoc hmanifest hsealed
    exact ⟨hshown.trans hsummary, hid⟩

/-! ## An example -/

/-- The parameters of the example, with all its attributes. -/
def exampleParams : PublicParams Scalar Scalar Scalar :=
  registerAll (registerAll exampleSetup.1.1 exampleCalls) exampleLater

/-- A manifest with another policy. -/
def forgedManifest : PackageManifest :=
  { id := "ff-01020304", originalFilename := "report", policySummary := "anyone", createdUnix := 0 }

/-- The store with a package, whose manifest is exchanged. -/
def forgedDisk (package : EncryptedPackage Scalar) : Disk :=
  (exampleStore.afterPut exponents serdeJson "report" package exampleStamp emptyDisk).write
    (exampleStore.manifestPath "ff-01020304") (utf8 (serdeJson.toStringPretty forgedManifest.toJson))

theorem id_exampleStamp : newId serdeJson exampleStamp = "ff-01020304" := by decide

/-- A package under two of three attributes, and a key that opens it. -/
theorem exists_opened : ∃ (package : EncryptedPackage Scalar) (rng' : Rng Scalar) (usk : UserSecretKey Scalar),
    Envelope.seal exponents boxes serdeJson exampleParams [1, 2, 3] exampleTree "2 of a, b, c" exampleDek
      (zeroBytes 12) (zeroBytes 12) (fun _ => 7) = .ok (package, rng') ∧
    Envelope.open exponents boxes serdeJson exampleParams usk package = .ok [1, 2, 3] ∧
    package.keyCiphertext.tree = exampleTree ∧
    ∀ l ∈ package.keyCiphertext.leaves, ∀ i ∈ l.path, i < 2 ^ 64 := by
  obtain ⟨package, rng', hseal⟩ := exists_seal exponents boxes serdeJson correct_boxes [1, 2, 3]
    exampleTree_leaves "2 of a, b, c" exampleDek (zeroBytes 12) (zeroBytes 12) fun _ => 7
  obtain ⟨usk, keyRng, hkey⟩ := exists_exampleKey
  obtain ⟨-, -, hminted⟩ := minted_of_keygen_eq_ok hkey
  have hdeployed : Deployed exponents exampleSetup.1.2 exampleParams :=
    ((deployed_setup exponents fun _ => 1).registerAll exampleCalls).registerAll exampleLater
  have hF : IndicesDistinct Scalar (2 ^ 64) :=
    IndicesDistinct.of_charP (by norm_num : 2 ^ 64 ≤ scalarModulus)
  have henc := encrypted_of_eq_ok (of_seal_eq_ok exponents boxes serdeJson hseal).2.2.2
  refine ⟨package, rng', usk, hseal, ?_, henc.tree_eq, henc.index_lt (by decide)⟩
  rw [open_eq exampleParams correct_boxes hF exampleSetup_beta hdeployed
    (hminted.mono (extends_registerAll _ exampleLater)) (by decide : exampleTree.Positive) (by decide)
    (seals_of_seal_eq_ok hseal), if_pos (by decide)]

/-- The exchanged manifest is shown, and the package is still there. -/
theorem listed_forgedDisk {package : EncryptedPackage Scalar}
    (htree : package.keyCiphertext.tree = exampleTree)
    (hpaths : ∀ l ∈ package.keyCiphertext.leaves, ∀ i ∈ l.path, i < 2 ^ 64) :
    Tampered exampleStore "ff-01020304"
      (exampleStore.afterPut exponents serdeJson "report" package exampleStamp emptyDisk)
      (forgedDisk package) ∧
    (Fs.exec (exampleStore.get exponents serdeJson "ff-01020304") (forgedDisk package)).1 = .ok package ∧
    (Fs.exec (exampleStore.list serdeJson) (forgedDisk package)).1 = .ok [forgedManifest.summary] ∧
    shownOn serdeJson (exampleStore.packageDir "ff-01020304") (forgedDisk package) =
      .ok forgedManifest.summary := by
  have hX : serdeJson.HexReadsBack := hexReadsBack_codecWith _
  have hshown : shownOn serdeJson (exampleStore.packageDir "ff-01020304") (forgedDisk package) =
      .ok forgedManifest.summary := by
    have hfile : (forgedDisk package).files.lookup
        ((exampleStore.packageDir "ff-01020304").join "manifest.json") =
          some (utf8 (serdeJson.toStringPretty forgedManifest.toJson)) := Disk.lookup_write_self _ _ _
    have hdepth := forgedManifest.depth_toJson
    rw [shownOn, manifestOn, Disk.read_of_lookup hfile, Fs.textOf_utf8, Outcome.mapErr_ok, ok_bind,
      decodeManifest, readsBackShallow_serdeJson.pretty _ (by omega), ok_bind,
      PackageManifest.fromJson_toJson, Outcome.ofExcept_ok, ok_bind]
  refine ⟨⟨rfl, fun q _ _ hq => Disk.lookup_write_ne hq _ _⟩, ?_, ?_, hshown⟩
  · have hread : Putting.ReadsBack exponents serdeJson ⟨"report", package, exampleStamp, []⟩ := by
      have hgates : ∀ g ∈ exampleTree.gates, 1 ≤ g.2 ∧ g.1 < 2 ^ 64 := by decide
      refine Putting.readsBack readsBack_exponents hX readsBackShallow_serdeJson ?_ ?_ hpaths ?_
      · rw [htree]
        exact fun g hg => (hgates g hg).1
      · rw [htree]
        exact fun g hg => (hgates g hg).2
      · rw [htree]
        decide
    have hdir : (forgedDisk package).has (exampleStore.packageDir "ff-01020304") = true :=
      Disk.has_write (id_exampleStamp ▸ PackageStore.has_dir_afterPut _ _ _ exampleStamp _) _ _
    have hsealed : (forgedDisk package).files.lookup (exampleStore.sealedPath "ff-01020304") =
        some (PackageStore.sealedBytes serdeJson package) := by
      rw [forgedDisk, Disk.lookup_write_ne (PackageStore.sealedPath_ne_manifestPath exampleStore _)]
      exact id_exampleStamp ▸ PackageStore.lookup_sealed_afterPut exampleStore "report" package exampleStamp _
    have hkey : (forgedDisk package).files.lookup (exampleStore.keyPath "ff-01020304") =
        some (PackageStore.keyBytes exponents serdeJson package) := by
      rw [forgedDisk, Disk.lookup_write_ne (PackageStore.keyPath_ne_manifestPath exampleStore _)]
      exact id_exampleStamp ▸ PackageStore.lookup_key_afterPut exampleStore "report" package exampleStamp _
    rw [(exampleStore.reads_get exponents serdeJson _ _).outcome,
      PackageStore.packageOn_eq exampleStore _ package hdir hsealed hkey, hread.sealedDoc, ok_bind,
      hread.keyCiphertext, ok_bind]
  · have hentries : withManifest (forgedDisk package) ((forgedDisk package).entries exampleStore.root) =
        [exampleStore.packageDir "ff-01020304"] := by
      rw [forgedDisk, PackageStore.afterPut, id_exampleStamp]
      generalize PackageStore.sealedBytes serdeJson package = b₁
      generalize PackageStore.keyBytes exponents serdeJson package = b₂
      generalize PackageStore.manifestBytes serdeJson "report" package exampleStamp = b₃
      generalize utf8 (serdeJson.toStringPretty forgedManifest.toJson) = b₄
      rfl
    have hroot : exampleStore.root ∈ (forgedDisk package).dirs := by
      rw [forgedDisk, PackageStore.afterPut, id_exampleStamp]
      change exampleStore.root ∈ (emptyDisk.createDirAll (exampleStore.packageDir "ff-01020304")).dirs
      decide
    have hlines : List.Forall₂ (fun dir line => shownOn serdeJson dir (forgedDisk package) = .ok line)
        (withManifest (forgedDisk package) ((forgedDisk package).entries exampleStore.root))
        [forgedManifest.summary] := by
      rw [hentries]
      exact List.Forall₂.cons hshown List.Forall₂.nil
    rw [(exampleStore.reads_list serdeJson _).outcome, PackageStore.listedOn_of_mem hroot hlines,
      sortByCreation, List.mergeSort_singleton]

theorem exec_put_forged (package : EncryptedPackage Scalar) :
    Fs.exec (exampleStore.put exponents serdeJson "report" package exampleStamp) emptyDisk =
      (.ok "ff-01020304", exampleStore.afterPut exponents serdeJson "report" package exampleStamp emptyDisk) := by
  rw [exampleStore.exec_put, id_exampleStamp]

theorem shows_iff_forgedDisk : ∃ (package : EncryptedPackage Scalar) (usk : UserSecretKey Scalar),
    Envelope.open exponents boxes serdeJson exampleParams usk package = .ok [1, 2, 3] ∧
    ∃ line ∈ [forgedManifest.summary],
      shownOn serdeJson (exampleStore.packageDir "ff-01020304") (forgedDisk package) = .ok line ∧
      ((line.policySummary = "2 of a, b, c" ∧
          exampleStore.packageDir line.id = exampleStore.packageDir "ff-01020304") ↔
        ManifestAgrees serdeJson exampleStore "ff-01020304" (forgedDisk package)) := by
  obtain ⟨package, rng', usk, hseal, hopen, htree, hpaths⟩ := exists_opened
  obtain ⟨htampered, hget, hlist, -⟩ := listed_forgedDisk htree hpaths
  have hlen : package.keyCiphertext.tree.ChildrenLt (2 ^ 64) := by
    rw [htree]
    decide
  have hthere : (forgedDisk package).has (exampleStore.manifestPath "ff-01020304") = true :=
    Disk.has_of_lookup (Disk.lookup_write_self _ _ _)
  exact ⟨package, usk, hopen, shows_iff (by norm_num : 2 ^ 64 < scalarModulus) binding_boxes (fun _ => rfl)
    (hexReadsBack_codecWith _) hseal (exec_put_forged package) htampered hget hlen rfl rfl hopen hlist
    hthere⟩

/-- A package under two of three attributes is shown under the policy `anyone`, and can be opened. -/
theorem not_shows_forgedDisk : ∃ (package : EncryptedPackage Scalar) (rng' : Rng Scalar)
    (usk : UserSecretKey Scalar) (line : PackageSummary),
    Envelope.seal exponents boxes serdeJson exampleParams [1, 2, 3] exampleTree "2 of a, b, c" exampleDek
      (zeroBytes 12) (zeroBytes 12) (fun _ => 7) = .ok (package, rng') ∧
    Fs.exec (exampleStore.put exponents serdeJson "report" package exampleStamp) emptyDisk =
      (.ok "ff-01020304", exampleStore.afterPut exponents serdeJson "report" package exampleStamp emptyDisk) ∧
    Tampered exampleStore "ff-01020304"
      (exampleStore.afterPut exponents serdeJson "report" package exampleStamp emptyDisk)
      (forgedDisk package) ∧
    (Fs.exec (exampleStore.get exponents serdeJson "ff-01020304") (forgedDisk package)).1 = .ok package ∧
    Envelope.open exponents boxes serdeJson exampleParams usk package = .ok [1, 2, 3] ∧
    (Fs.exec (exampleStore.list serdeJson) (forgedDisk package)).1 = .ok [line] ∧
    shownOn serdeJson (exampleStore.packageDir "ff-01020304") (forgedDisk package) = .ok line ∧
    line.policySummary ≠ "2 of a, b, c" := by
  obtain ⟨package, rng', usk, hseal, hopen, htree, hpaths⟩ := exists_opened
  obtain ⟨htampered, hget, hlist, hshown⟩ := listed_forgedDisk htree hpaths
  exact ⟨package, rng', usk, forgedManifest.summary, hseal, exec_put_forged package, htampered, hget, hopen,
    hlist, hshown, by decide⟩

end SecureABE.Storage
