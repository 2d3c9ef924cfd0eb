import SecureABE.Cli.Layout
import SecureABE.Foundations.FaultyDisk
import SecureABE.Storage.Listing

/-!
# Interrupted puts

`put` creates the directory of a package, and writes the sealed document, the wrapped key and the
manifest, in this order. A call may be cut off or fail at each step (`Putting`). What the calls leave
below the root of the store is what their steps have written (`Stored`, kept by `Stored.after`). As
`list` looks for the manifest, which is the last step, it shows the complete packages only
(`listed_puts`).
-/

namespace SecureABE.Storage

open Rust SecureABE.Core SecureABE.Envelope SecureABE.Cli

variable {F G₁ G₂ Gₜ : Type} [Field F] [DecidableEq F] [AddCommGroup G₁] [Module F G₁]
  [AddCommGroup G₂] [Module F G₂] [AddCommGroup Gₜ] [Module F Gₜ]

/-- A call of `put`, with what it meets at each step. -/
structure Putting (G₁ : Type) where
  originalFilename : String
  package : EncryptedPackage G₁
  stamp : Stamp
  faults : List (Option Fault)

variable (C : Curve F G₁ G₂ Gₜ) (D : Codec) (store : PackageStore)

namespace Putting

/-- The number of steps that are done before the call is cut off or fails. -/
def done (p : Putting G₁) : ℕ := (p.faults.takeWhile Option.isNone).length

/-- The manifest, which is the last of the four steps, was written. -/
def written (p : Putting G₁) : Bool := 4 ≤ p.done

def id (p : Putting G₁) : String := newId D p.stamp

/-- The manifest of the package. -/
def manifest (p : Putting G₁) : PackageManifest :=
  { id := newId D p.stamp, originalFilename := p.originalFilename,
    policySummary := p.package.sealedDoc.policySummary, createdUnix := p.stamp.createdUnix }

/-- What the steps leave below the root, after the directory. -/
def files (p : Putting G₁) : List (List String × Bytes) :=
  [([p.id D, "sealed.json"], PackageStore.sealedBytes D p.package),
    ([p.id D, "key_ciphertext.json"], PackageStore.keyBytes C D p.package),
    ([p.id D, "manifest.json"], utf8 (D.toStringPretty (p.manifest D).toJson))].take (p.done - 1)

/-- The disk after the call. -/
def after (p : Putting G₁) (d : Disk) : Disk :=
  (Prog.runFaulty FileOp.faulty (store.put C D p.originalFilename p.package p.stamp) p.faults d).2

/-- What the call writes is read back as it was written. -/
structure ReadsBack (p : Putting G₁) : Prop where
  sealedDoc : PackageStore.decodeSealed D (D.toStringPretty p.package.sealedDoc.toJson) = .ok p.package.sealedDoc
  keyCiphertext : PackageStore.decodeKey C D (ciphertextToJson C D p.package.keyCiphertext) =
    .ok p.package.keyCiphertext
  manifest : decodeManifest D (D.toStringPretty (p.manifest D).toJson) = .ok (p.manifest D)

end Putting

/-- The disk after a sequence of calls. -/
def afterAll (puts : List (Putting G₁)) (d : Disk) : Disk :=
  puts.foldl (fun d p => p.after C D store d) d

/-- There is nothing below the root of the store. -/
structure Vacant (d : Disk) : Prop where
  root : store.root ∉ d.files
  below : ∀ cs, cs ≠ [] → d.has (store.root.under cs) = false

/-- What is below the root of the store is what the calls have left there. -/
structure Stored (puts : List (Putting G₁)) (d : Disk) : Prop where
  root : store.root ∉ d.files
  rootDir : ∀ p ∈ puts, 1 ≤ p.done → store.root ∈ d.dirs
  dir : ∀ cs, cs ≠ [] → (store.root.under cs ∈ d.dirs ↔ ∃ p ∈ puts, 1 ≤ p.done ∧ cs = [p.id D])
  file : ∀ cs b, cs ≠ [] →
    (d.files.lookup (store.root.under cs) = some b ↔ ∃ p ∈ puts, (cs, b) ∈ p.files C D)

variable {C D store}

/-! ## Paths -/

section Paths

variable {id : String} (h : Path.IsName id)
include h

theorem packageDir_under : store.packageDir id = store.root.under [id] := by
  rw [PackageStore.packageDir, Path.join_name h, Path.under]

theorem sealedPath_under : store.sealedPath id = store.root.under [id, "sealed.json"] := by
  rw [PackageStore.sealedPath, packageDir_under h, Path.join_eq_under isName_sealed]
  rfl

theorem keyPath_under : store.keyPath id = store.root.under [id, "key_ciphertext.json"] := by
  rw [PackageStore.keyPath, packageDir_under h, Path.join_eq_under isName_key]
  rfl

theorem manifestPath_under : store.manifestPath id = store.root.under [id, "manifest.json"] := by
  rw [PackageStore.manifestPath, packageDir_under h, Path.join_eq_under isName_manifest]
  rfl

end Paths

/-! ## The steps of a call -/

/-- Files below a directory are written. -/
def writeAll (root : Path) (files : List (List String × Bytes)) (d : Disk) : Disk :=
  files.foldl (fun d f => d.write (root.under f.1) f.2) d

theorem lookup_writeAll {root : Path} {files : List (List String × Bytes)}
    (hfiles : (files.map Prod.fst).Nodup) (d : Disk) (cs : List String) (b : Bytes) :
    (writeAll root files d).files.lookup (root.under cs) = some b ↔
      (cs, b) ∈ files ∨ (cs ∉ files.map Prod.fst ∧ d.files.lookup (root.under cs) = some b) := by
  induction files generalizing d with
  | nil => simp [writeAll]
  | cons f files ih =>
    obtain ⟨cs', b'⟩ := f
    obtain ⟨hcs', hfiles⟩ := List.nodup_cons.1 hfiles
    rw [writeAll, List.foldl_cons, ← writeAll, ih hfiles]
    by_cases hcs : cs = cs'
    · subst hcs
      have hnot : ∀ b'', (cs, b'') ∉ files := fun b'' hmem => hcs' (List.mem_map.2 ⟨(cs, b''), hmem, rfl⟩)
      simp only [List.mem_cons, Prod.mk.injEq, true_and, hnot, or_false, List.map_cons, true_or,
        not_true_eq_false, false_and, false_or]
      rw [Disk.lookup_write_self, Option.some.injEq]
      exact ⟨fun h => h.2.symm, fun h => ⟨hcs', h.symm⟩⟩
    · have hne : root.under cs ≠ root.under cs' := fun heq => hcs (Path.under_injective heq)
      rw [Disk.lookup_write_ne hne]
      simp [hcs]

theorem dirs_writeAll (root : Path) (files : List (List String × Bytes)) (d : Disk) :
    (writeAll root files d).dirs = d.dirs := by
  induction files generalizing d with
  | nil => rfl
  | cons f files ih => exact ih _

namespace Putting

variable (p : Putting G₁)

omit [DecidableEq F] in
theorem nodup_files : ((p.files C D).map Prod.fst).Nodup := by
  rw [files, List.map_take]
  apply List.Nodup.sublist (List.take_sublist _ _)
  simp

omit [AddCommGroup G₁] in
theorem isName_id (hX : D.HexReadsBack) : Path.IsName (p.id D) := isName_newId hX p.stamp

omit [DecidableEq F]

/-- A call that does not get past its first step leaves at most directories above the package. -/
theorem after_of_done_eq_zero (h : p.done = 0) (d : Disk) :
    p.after C D store d = d ∨ ∃ n, p.after C D store d = d.createPart (store.packageDir (p.id D)) n := by
  obtain ⟨originalFilename, package, stamp, faults⟩ := p
  rcases faults with _ | ⟨_ | φ, faults⟩
  · exact Or.inl rfl
  · simp [done] at h
  · exact Or.inr ⟨φ.progress, rfl⟩

/-- The files of a call by the names that the store has for them. -/
theorem writeAll_files (hX : D.HexReadsBack) (d : Disk) : writeAll store.root (p.files C D) d =
    ([(store.sealedPath (p.id D), PackageStore.sealedBytes D p.package),
      (store.keyPath (p.id D), PackageStore.keyBytes C D p.package),
      (store.manifestPath (p.id D), utf8 (D.toStringPretty (p.manifest D).toJson))].take
        (p.done - 1)).foldl (fun d f => d.write f.1 f.2) d := by
  have hid := p.isName_id hX
  rw [sealedPath_under hid, keyPath_under hid, manifestPath_under hid, writeAll, files]
  match p.done - 1 with
  | 0 | 1 | 2 => rfl
  | n + 3 =>
    rw [List.take_of_length_le (by simp), List.take_of_length_le (by simp)]
    rfl

/-- Any other call leaves the directory and what its steps have written. -/
theorem after_of_done (hX : D.HexReadsBack) (h : 1 ≤ p.done) (d : Disk) :
    p.after C D store d =
      writeAll store.root (p.files C D) (d.createDirAll (store.packageDir (p.id D))) := by
  rw [p.writeAll_files hX]
  obtain ⟨originalFilename, package, stamp, faults⟩ := p
  rcases faults with _ | ⟨_ | φ, faults⟩
  · simp [done] at h
  · rcases faults with _ | ⟨_ | φ, faults⟩
    · rfl
    · rcases faults with _ | ⟨_ | φ, faults⟩
      · rfl
      · rcases faults with _ | ⟨_ | φ, faults⟩
        · rfl
        · -- all four steps are done
          rw [List.take_of_length_le (by simp [done])]
          rfl
        · rfl
      · rfl
    · rfl
  · simp [done] at h

end Putting

/-! ## What the calls leave -/

theorem mem_dirs_createDirAll {d : Disk} {p q : Path} :
    q ∈ (d.createDirAll p).dirs ↔ q ∈ d.dirs ∨ q ∈ p.ancestors := by
  by_cases hq : q ∈ d.dirs
  · simp [Disk.createDirAll, hq]
  · simp [Disk.createDirAll, hq]

/-- A directory in another one is among its entries. -/
theorem under_mem_entries {d : Disk} {root : Path} {c : String} (h : root.under [c] ∈ d.dirs) :
    root.under [c] ∈ d.entries root := by
  rw [Disk.entries, List.mem_dedup, List.mem_filter, List.mem_append, decide_eq_true_eq]
  refine ⟨Or.inr h, by simp [Path.under], ?_⟩
  rw [Path.under, List.dropLast_concat]

/-- Nothing below the root is a directory above it. -/
theorem under_notMem_ancestors {root : Path} {cs ds : List String} (hcs : cs ≠ [])
    (hds : ds <+: root.components) : root.under cs ∉ (⟨ds⟩ : Path).ancestors := by
  intro hmem
  obtain ⟨es, hes, heq⟩ := List.mem_map.1 hmem
  have hprefix := ((List.mem_inits _ _).1 hes).trans hds
  have hlen := congrArg (fun p : Path => p.components.length) heq
  have hle := hprefix.length_le
  have hpos := List.length_pos_iff.2 hcs
  simp only [Path.under, List.length_append] at hlen
  omega

section

omit [DecidableEq F]

theorem Vacant.stored {d : Disk} (h : Vacant store d) : Stored C D store [] d where
  root := h.root
  rootDir := by simp
  dir cs hcs := by
    have hnot := h.below cs hcs
    rw [Disk.has, Bool.or_eq_false_iff] at hnot
    simpa using hnot.2
  file cs b hcs := by
    have hnot := h.below cs hcs
    rw [Disk.has, Bool.or_eq_false_iff] at hnot
    have hmem : store.root.under cs ∉ d.files := by simpa using hnot.1
    simp [AList.lookup_eq_none.2 hmem]

/-- A file is in the directory of its package. -/
theorem Putting.eq_of_mem_files {p : Putting G₁} {cs : List String} {b : Bytes}
    (h : (cs, b) ∈ p.files C D) : ∃ name, cs = [p.id D, name] := by
  have hmem := List.mem_of_mem_take h
  simp only [List.mem_cons, Prod.mk.injEq, List.not_mem_nil, or_false] at hmem
  rcases hmem with ⟨rfl, -⟩ | ⟨rfl, -⟩ | ⟨rfl, -⟩
  · exact ⟨_, rfl⟩
  · exact ⟨_, rfl⟩
  · exact ⟨_, rfl⟩

/-- A call that did nothing below the root. -/
theorem Stored.concat_of_done_eq_zero {puts : List (Putting G₁)} {d d' : Disk}
    (h : Stored C D store puts d) {p : Putting G₁} (hp : p.done = 0) (hfiles : d'.files = d.files)
    (hdirs : ∀ q ∈ d.dirs, q ∈ d'.dirs)
    (hbelow : ∀ cs, cs ≠ [] → (store.root.under cs ∈ d'.dirs ↔ store.root.under cs ∈ d.dirs)) :
    Stored C D store (puts ++ [p]) d' where
  root := hfiles ▸ h.root
  rootDir p' hp' hdone := by
    rcases List.mem_append.1 hp' with hmem | hmem
    · exact hdirs _ (h.rootDir p' hmem hdone)
    · obtain rfl := List.mem_singleton.1 hmem
      omega
  dir cs hcs := by
    rw [hbelow cs hcs, h.dir cs hcs]
    simp [hp]
  file cs b hcs := by
    rw [hfiles, h.file cs b hcs]
    simp [Putting.files, hp]

/-- **One more call** leaves what it has written. -/
theorem Stored.after (hX : D.HexReadsBack) {puts : List (Putting G₁)} {d : Disk}
    (h : Stored C D store puts d) {p : Putting G₁} (hp : p.id D ∉ puts.map (·.id D)) :
    Stored C D store (puts ++ [p]) (p.after C D store d) := by
  have hid := p.isName_id hX
  rcases Nat.eq_zero_or_pos p.done with hzero | hpos
  · have hafter : p.after C D store d = d ∨
        ∃ n, p.after C D store d = d.createPart (store.packageDir (p.id D)) n :=
      p.after_of_done_eq_zero hzero d
    rcases hafter with heq | ⟨n, heq⟩
    · rw [heq]
      exact h.concat_of_done_eq_zero hzero rfl (fun q hq => hq) fun cs _ => Iff.rfl
    · rw [heq]
      cases n with
      | zero => exact h.concat_of_done_eq_zero hzero rfl (fun q hq => hq) fun cs _ => Iff.rfl
      | succ n =>
        rw [Disk.createPart, packageDir_under hid, Path.under, List.dropLast_concat]
        refine h.concat_of_done_eq_zero hzero rfl (fun q hq => mem_dirs_createDirAll.2 (Or.inl hq))
          fun cs hcs => ?_
        rw [mem_dirs_createDirAll, or_iff_left (under_notMem_ancestors hcs (List.take_prefix _ _))]
  · rw [p.after_of_done hX hpos, packageDir_under hid]
    refine ⟨fun hmem => ?_, fun p' hp' hdone => ?_, fun cs hcs => ?_, fun cs b hcs => ?_⟩
    · obtain ⟨b, hb⟩ := HashMap.exists_lookup_of_mem hmem
      rw [← Path.under_nil store.root] at hb
      rcases (lookup_writeAll p.nodup_files _ [] b).1 (by rwa [Path.under_nil] at hb ⊢) with hfile | ⟨-, hold⟩
      · obtain ⟨name, hname⟩ := Putting.eq_of_mem_files hfile
        cases hname
      · rw [Path.under_nil] at hold
        exact h.root (HashMap.mem_of_lookup hold)
    · have habove : store.root.under [] ∈ (store.root.under [p.id D]).ancestors :=
        Path.under_mem_ancestors.2 List.nil_prefix
      rw [Path.under_nil] at habove
      rw [dirs_writeAll, mem_dirs_createDirAll]
      exact Or.inr habove
    · have hprefix : cs <+: [p.id D] ↔ cs = [p.id D] := by
        rw [List.prefix_cons_iff]
        simp [hcs]
      rw [dirs_writeAll, mem_dirs_createDirAll, h.dir cs hcs, Path.under_mem_ancestors, hprefix]
      have hdone : 1 ≤ p.done := hpos
      simp [or_and_right, exists_or, hdone]
    · rw [lookup_writeAll p.nodup_files, Disk.files_createDirAll, h.file cs b hcs]
      have hother : ∀ p' ∈ puts, (cs, b) ∈ p'.files C D → cs ∉ (p.files C D).map Prod.fst := by
        intro p' hp' hmem hcs'
        obtain ⟨⟨_, b'⟩, hf, rfl⟩ := List.mem_map.1 hcs'
        obtain ⟨name, rfl⟩ := Putting.eq_of_mem_files hmem
        obtain ⟨name', heq⟩ := Putting.eq_of_mem_files hf
        exact hp (List.mem_map.2 ⟨p', hp', (List.cons.inj heq).1⟩)
      constructor
      · rintro (hmem | ⟨-, p', hp', hmem⟩)
        · exact ⟨p, by simp, hmem⟩
        · exact ⟨p', by simp [hp'], hmem⟩
      · rintro ⟨p', hp', hmem⟩
        rcases List.mem_append.1 hp' with hp' | hp'
        · exact Or.inr ⟨hother p' hp' hmem, p', hp', hmem⟩
        · obtain rfl := List.mem_singleton.1 hp'
          exact Or.inl hmem

/-- **What a sequence of calls leaves.** -/
theorem stored_afterAll (hX : D.HexReadsBack) {d : Disk} (hd : Vacant store d) {puts : List (Putting G₁)}
    (hids : (puts.map (·.id D)).Nodup) : Stored C D store puts (afterAll C D store puts d) := by
  induction puts using List.reverseRecOn with
  | nil => exact hd.stored
  | append_singleton puts p ih =>
    rw [List.map_append, List.map_singleton, List.nodup_append] at hids
    obtain ⟨hputs, -, hne⟩ := hids
    rw [afterAll, List.foldl_append, List.foldl_cons, List.foldl_nil]
    exact (ih hputs).after hX fun hmem => hne _ hmem _ (List.mem_singleton_self _) rfl

end

/-! ## What is listed -/

variable (D) in
/-- The lines of the packages whose manifest was written. -/
def shownLines (puts : List (Putting G₁)) : List PackageSummary :=
  (puts.filter Putting.written).map fun p => (p.manifest D).summary

namespace Stored

variable {puts : List (Putting G₁)} {d : Disk} (hX : D.HexReadsBack) (h : Stored C D store puts d)
include hX h

omit [DecidableEq F]

/-- The entries of the root are the directories of the packages. -/
theorem mem_entries {q : Path} : q ∈ d.entries store.root ↔
    ∃ p ∈ puts, 1 ≤ p.done ∧ q = store.packageDir (p.id D) := by
  constructor
  · intro hq
    rw [Disk.entries, List.mem_dedup, List.mem_filter, List.mem_append, decide_eq_true_eq] at hq
    obtain ⟨hmem, hne, hlast⟩ := hq
    obtain ⟨c, hc⟩ : ∃ c, q = store.root.under [c] := by
      refine ⟨q.components.getLast hne, Rust.Path.ext ?_⟩
      rw [Rust.Path.under, ← hlast, List.dropLast_concat_getLast hne]
    subst hc
    rcases hmem with hfile | hdir
    · obtain ⟨b, hb⟩ := HashMap.exists_lookup_of_mem (HashMap.mem_keys_iter.1 hfile)
      obtain ⟨p, -, hp⟩ := (h.file [c] b (by simp)).1 hb
      obtain ⟨name, hname⟩ := Putting.eq_of_mem_files hp
      cases hname
    · obtain ⟨p, hp, hdone, hc⟩ := (h.dir [c] (by simp)).1 hdir
      exact ⟨p, hp, hdone, by rw [packageDir_under (p.isName_id hX), hc]⟩
  · rintro ⟨p, hp, hdone, rfl⟩
    rw [packageDir_under (p.isName_id hX)]
    exact under_mem_entries ((h.dir _ (by simp)).2 ⟨p, hp, hdone, rfl⟩)

/-- The files of a complete package. -/
theorem lookup_of_written {p : Putting G₁} (hp : p ∈ puts) (hdone : p.written = true) :
    d.files.lookup (store.sealedPath (p.id D)) = some (PackageStore.sealedBytes D p.package) ∧
      d.files.lookup (store.keyPath (p.id D)) = some (PackageStore.keyBytes C D p.package) ∧
      d.files.lookup (store.manifestPath (p.id D)) =
        some (utf8 (D.toStringPretty (p.manifest D).toJson)) := by
  have hid := p.isName_id hX
  have hall : p.files C D =
      [([p.id D, "sealed.json"], PackageStore.sealedBytes D p.package),
        ([p.id D, "key_ciphertext.json"], PackageStore.keyBytes C D p.package),
        ([p.id D, "manifest.json"], utf8 (D.toStringPretty (p.manifest D).toJson))] := by
    have hfour : 4 ≤ p.done := of_decide_eq_true hdone
    exact List.take_of_length_le (by simp; omega)
  rw [sealedPath_under hid, keyPath_under hid, manifestPath_under hid]
  refine ⟨(h.file _ _ (by simp)).2 ⟨p, hp, ?_⟩, (h.file _ _ (by simp)).2 ⟨p, hp, ?_⟩,
    (h.file _ _ (by simp)).2 ⟨p, hp, ?_⟩⟩ <;>
  · rw [hall]
    simp

/-- The package whose directory has a manifest is complete. -/
theorem has_manifest_iff (hids : (puts.map (·.id D)).Nodup) {p : Putting G₁} (hp : p ∈ puts) :
    d.has ((store.packageDir (p.id D)).join "manifest.json") = true ↔ p.written = true := by
  change d.has (store.manifestPath (p.id D)) = true ↔ _
  constructor
  · intro hhas
    rw [manifestPath_under (p.isName_id hX), Disk.has, Bool.or_eq_true_iff] at hhas
    rcases hhas with hfile | hdir
    · obtain ⟨b, hb⟩ := HashMap.exists_lookup_of_mem (of_decide_eq_true hfile)
      obtain ⟨p', hp', hmem⟩ := (h.file _ b (by simp)).1 hb
      obtain ⟨name, hname⟩ := Putting.eq_of_mem_files hmem
      obtain rfl : p' = p := List.inj_on_of_nodup_map hids hp' hp (List.cons.inj hname).1.symm
      refine decide_eq_true (not_lt.1 fun hlt => ?_)
      have htwo := List.take_subset_take_left _ (show p'.done - 1 ≤ 2 by omega) hmem
      simp at htwo
    · obtain ⟨p', -, -, hname⟩ := (h.dir _ (by simp)).1 (of_decide_eq_true hdir)
      simp at hname
  · intro hdone
    exact Disk.has_of_lookup (h.lookup_of_written hX hp hdone).2.2

/-- The entries with a manifest are the directories of the complete packages. -/
theorem perm_withManifest (hids : (puts.map (·.id D)).Nodup) :
    (withManifest d (d.entries store.root)).Perm
      ((puts.filter Putting.written).map fun p => store.packageDir (p.id D)) := by
  have hnodup : ((puts.filter Putting.written).map fun p => store.packageDir (p.id D)).Nodup := by
    apply (List.nodup_map_iff_inj_on (hids.of_map.filter _)).2
    intro p hp p' hp' heq
    rw [packageDir_under (p.isName_id hX), packageDir_under (p'.isName_id hX)] at heq
    exact List.inj_on_of_nodup_map hids (List.mem_of_mem_filter hp) (List.mem_of_mem_filter hp')
      (List.cons.inj (Path.under_injective heq)).1
  have hentries : (withManifest d (d.entries store.root)).Nodup := (List.nodup_dedup _).filter _
  apply (List.perm_ext_iff_of_nodup hentries hnodup).2
  intro q
  rw [withManifest, List.mem_filter, h.mem_entries hX, List.mem_map]
  constructor
  · rintro ⟨⟨p, hp, -, rfl⟩, hhas⟩
    exact ⟨p, List.mem_filter.2 ⟨hp, (h.has_manifest_iff hX hids hp).1 hhas⟩, rfl⟩
  · rintro ⟨p, hp, rfl⟩
    obtain ⟨hp, hdone⟩ := List.mem_filter.1 hp
    have hfour : 4 ≤ p.done := of_decide_eq_true hdone
    exact ⟨⟨p, hp, by omega, rfl⟩, (h.has_manifest_iff hX hids hp).2 hdone⟩

/-- What is listed. -/
theorem exists_listedOn (hids : (puts.map (·.id D)).Nodup) (hread : ∀ p ∈ puts, p.ReadsBack C D) :
    ∃ shown, store.listedOn D d = .ok (sortByCreation shown) ∧ shown.Perm (shownLines D puts) := by
  by_cases hroot : store.root ∈ d.dirs
  · have hlines : List.Forall₂ (fun dir line => shownOn D dir d = .ok line)
        ((puts.filter Putting.written).map fun p => store.packageDir (p.id D)) (shownLines D puts) := by
      rw [shownLines, List.forall₂_map_left_iff, List.forall₂_map_right_iff, List.forall₂_same]
      intro p hp
      obtain ⟨hp, hdone⟩ := List.mem_filter.1 hp
      have hfile := (h.lookup_of_written hX hp hdone).2.2
      rw [PackageStore.manifestPath] at hfile
      rw [shownOn, manifestOn, Disk.read_of_lookup hfile, Fs.textOf_utf8, Outcome.mapErr_ok, ok_bind,
        (hread p hp).manifest, ok_bind]
    obtain ⟨shown, hshown, hperm⟩ :=
      List.perm_comp_forall₂ (h.perm_withManifest hX hids) hlines
    exact ⟨shown, PackageStore.listedOn_of_mem hroot hshown, hperm⟩
  · -- no call has come to its second step
    have hnone : puts.filter Putting.written = [] := by
      refine List.filter_eq_nil_iff.2 fun p hp hdone => hroot (h.rootDir p hp ?_)
      have hfour : 4 ≤ p.done := of_decide_eq_true hdone
      omega
    have hhas : d.has store.root = false := by simp [Disk.has, h.root, hroot]
    refine ⟨[], ?_, ?_⟩
    · rw [PackageStore.listedOn_of_not_has hhas, sortByCreation, List.mergeSort_nil]
    · rw [shownLines, hnone]
      exact List.Perm.refl []

/-- A complete package is read back. -/
theorem packageOn_of_written {p : Putting G₁} (hp : p ∈ puts) (hdone : p.written = true)
    (hread : p.ReadsBack C D) : store.packageOn C D (p.id D) d = .ok p.package := by
  obtain ⟨hsealed, hkey, -⟩ := h.lookup_of_written hX hp hdone
  have hfour : 4 ≤ p.done := of_decide_eq_true hdone
  have hdir : d.has (store.packageDir (p.id D)) = true := by
    rw [packageDir_under (p.isName_id hX), Disk.has, Bool.or_eq_true_iff]
    exact Or.inr (decide_eq_true ((h.dir _ (by simp)).2 ⟨p, hp, by omega, rfl⟩))
  rw [PackageStore.packageOn_eq store _ p.package hdir hsealed hkey, hread.sealedDoc, ok_bind,
    hread.keyCiphertext, ok_bind]

end Stored

omit [DecidableEq F] in
/-- **Interrupted puts never surface**: after any calls with different ids, each of which is cut off or
fails where it likes, `list` shows the packages whose manifest was written, in the order of their creation,
and `get` returns each of them as it was put. -/
theorem listed_puts (hX : D.HexReadsBack) {d : Disk} (hd : Vacant store d) {puts : List (Putting G₁)}
    (hids : (puts.map (·.id D)).Nodup) (hread : ∀ p ∈ puts, p.ReadsBack C D) :
    ∃ out, Fs.exec (store.list D) (afterAll C D store puts d) = (.ok out, afterAll C D store puts d) ∧
      out.Perm (shownLines D puts) ∧
      out.Pairwise (fun line line' => line.createdUnix ≤ line'.createdUnix) ∧
      (out.map PackageSummary.id).Nodup ∧
      ∀ line ∈ out, ∃ p ∈ puts, p.written = true ∧ line = (p.manifest D).summary ∧
        (Fs.exec (store.get C D line.id) (afterAll C D store puts d)).1 = .ok p.package := by
  have hstored := stored_afterAll (C := C) hX hd hids
  obtain ⟨shown, hlisted, hperm⟩ := hstored.exists_listedOn hX hids hread
  have hout := (sortByCreation_perm shown).trans hperm
  refine ⟨sortByCreation shown, by rw [store.reads_list D, hlisted], hout, pairwise_sortByCreation shown,
    ?_, fun line hline => ?_⟩
  · apply (hout.map PackageSummary.id).nodup_iff.2
    rw [shownLines, List.map_map]
    exact hids.sublist (List.filter_sublist.map _)
  · obtain ⟨p, hp, rfl⟩ := List.mem_map.1 (hout.mem_iff.1 hline)
    obtain ⟨hp, hdone⟩ := List.mem_filter.1 hp
    refine ⟨p, hp, hdone, rfl, ?_⟩
    rw [(store.reads_get C D _ _).outcome]
    exact hstored.packageOn_of_written hX hp hdone (hread p hp)

omit [DecidableEq F] in
/-- A package whose policy is not nested too deeply is read back as it was written. -/
theorem Putting.readsBack (hC : C.ReadsBack) (hX : D.HexReadsBack) (hD : D.ReadsBackShallow)
    {p : Putting G₁} (hgates : ∀ g ∈ p.package.keyCiphertext.tree.gates, 1 ≤ g.2)
    (htree : p.package.keyCiphertext.tree.ThresholdsFit)
    (hpaths : ∀ l ∈ p.package.keyCiphertext.leaves, ∀ i ∈ l.path, i < 2 ^ 64)
    (hdepth : p.package.keyCiphertext.tree.gateDepth ≤ 41) : p.ReadsBack C D where
  sealedDoc := PackageStore.decodeSealed_toJson
    (hD.pretty _ (lt_of_le_of_lt (depth_sealedDocument _) (by omega)))
  keyCiphertext := by
    have hshallow : (ciphertextDto C D p.package.keyCiphertext).toJson.depth < 128 :=
      (depth_ciphertextDto hgates).2 hdepth
    have hkey := hD.pretty _ hshallow
    rw [PackageStore.decodeKey, ciphertextFromJson_toJson hC hX htree hpaths hkey, Outcome.mapErr_ok]
  manifest := by
    have hdepth := (p.manifest D).depth_toJson
    rw [decodeManifest, hD.pretty _ (by omega), ok_bind, PackageManifest.fromJson_toJson,
      Outcome.ofExcept_ok]

/-! ## An example -/

/-- A package under the policy `a`. -/
def examplePackage : EncryptedPackage Scalar where
  sealedDoc := ⟨zeroBytes 12, [], "a"⟩
  keyCiphertext := ⟨.leaf "a", 0, [], ⟨zeroBytes 12, []⟩⟩

/-- A call that is cut off before it writes the wrapped key, one whose last write fails, and one that is
complete. -/
def examplePuts : List (Putting Scalar) :=
  [⟨"draft", examplePackage, exampleStamp, [none, none]⟩,
    ⟨"letter", examplePackage, { exampleStamp with nanos := 256 },
      [none, none, none, some ⟨.notFound, 0⟩]⟩,
    ⟨"report", examplePackage, { exampleStamp with nanos := 257 }, [none, none, none, none]⟩]

example : (examplePuts.filter Putting.written).map Putting.originalFilename = ["report"] := by decide

theorem listed_puts_examplePuts : ∃ out,
    Fs.exec (exampleStore.list serdeJson) (afterAll exponents serdeJson exampleStore examplePuts emptyDisk) =
        (.ok out, afterAll exponents serdeJson exampleStore examplePuts emptyDisk) ∧
      out.Perm (shownLines serdeJson examplePuts) ∧
      out.Pairwise (fun line line' => line.createdUnix ≤ line'.createdUnix) ∧
      (out.map PackageSummary.id).Nodup ∧
      ∀ line ∈ out, ∃ p ∈ examplePuts, p.written = true ∧ line = (p.manifest serdeJson).summary ∧
        (Fs.exec (exampleStore.get exponents serdeJson line.id)
          (afterAll exponents serdeJson exampleStore examplePuts emptyDisk)).1 = .ok p.package := by
  have hX : serdeJson.HexReadsBack := hexReadsBack_codecWith _
  have hpackage : ∀ p ∈ examplePuts, p.package = examplePackage := by
    simp [examplePuts]
  have hvacant : Vacant exampleStore emptyDisk := ⟨List.not_mem_nil, fun _ _ => rfl⟩
  apply listed_puts hX hvacant (by decide)
  intro p hp
  have hp := hpackage p hp
  refine p.readsBack readsBack_exponents hX readsBackShallow_serdeJson ?_ ?_ ?_ ?_ <;> rw [hp]
  · exact fun g hg => absurd hg List.not_mem_nil
  · exact fun g hg => absurd hg List.not_mem_nil
  · exact fun l hl => absurd hl List.not_mem_nil
  · exact Nat.zero_le _

end SecureABE.Storage
