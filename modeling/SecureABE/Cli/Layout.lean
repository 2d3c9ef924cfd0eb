import SecureABE.Cli.Files
import SecureABE.Storage.Roundtrip

/-!
# The layout of a deployment

The files that the program keeps are `File`s, each with its place under the data directory, and
different files have different places. The paths that the program puts together lead to them
(`setupPath_eq` and so on), provided a user's name has no slash in it. What a disk holds in the files
is its `view`; a write to one of them changes the view there, any other write leaves it alone.
-/

namespace SecureABE.Cli

open Rust SecureABE.Core SecureABE.Storage

/-- The files of a deployment. -/
inductive File
  | setup
  | authorities
  | revocation
  | audit
  | key (user : String)
  | sealedDoc (id : String)
  | wrappedKey (id : String)
  | manifest (id : String)
  deriving DecidableEq

namespace File

/-- The place of a file under the data directory. -/
def place : File → List String
  | .setup => ["setup.json"]
  | .authorities => ["authorities.json"]
  | .revocation => ["revocation.json"]
  | .audit => ["audit.log"]
  | .key user => ["keys", user ++ ".json"]
  | .sealedDoc id => ["packages", id, "sealed.json"]
  | .wrappedKey id => ["packages", id, "key_ciphertext.json"]
  | .manifest id => ["packages", id, "manifest.json"]

/-- Different files have different places. -/
theorem place_injective {f g : File} (h : f.place = g.place) : f = g := by
  cases f <;> cases g <;> simp [place] at h ⊢ <;> exact h

def path (data : Path) (f : File) : Path := data.under f.place

theorem path_injective {data : Path} {f g : File} (h : f.path data = g.path data) : f = g :=
  place_injective (Path.under_injective h)

theorem path_inj {data : Path} {f g : File} : f.path data = g.path data ↔ f = g :=
  ⟨path_injective, congrArg (path data)⟩

end File

/-! ## The paths of the program -/

section Paths

variable (data : Path)

theorem join_name_eq {s : String} (h : Path.IsName s) : data.join s = data.under [s] :=
  Path.join_name h data

theorem setupPath_eq : setupPath data = File.setup.path data :=
  join_name_eq data ⟨by decide, by decide, by decide, by decide⟩

theorem authoritiesPath_eq : authoritiesPath data = File.authorities.path data :=
  join_name_eq data ⟨by decide, by decide, by decide, by decide⟩

theorem revocationPath_eq : revocationPath data = File.revocation.path data :=
  join_name_eq data ⟨by decide, by decide, by decide, by decide⟩

theorem auditPath_eq : auditPath data = File.audit.path data :=
  join_name_eq data ⟨by decide, by decide, by decide, by decide⟩

theorem keysDir_eq : keysDir data = data.under ["keys"] :=
  join_name_eq data ⟨by decide, by decide, by decide, by decide⟩

theorem packagesDir_eq : packagesDir data = data.under ["packages"] :=
  join_name_eq data ⟨by decide, by decide, by decide, by decide⟩

variable {data}

theorem isName_json {user : String} (h : '/' ∉ user.toList) : Path.IsName (user ++ ".json") := by
  refine Path.isName_of_mem (c := 'j') ?_ (by decide) ?_
  · rw [String.toList_append]
    exact List.mem_append_right _ (by decide)
  · rw [String.toList_append, List.mem_append, not_or]
    exact ⟨h, by decide⟩

theorem keyFile_eq {user : String} (h : '/' ∉ user.toList) :
    keyFile data user = (File.key user).path data := by
  rw [keyFile, keysDir_eq, Path.join_eq_under (isName_json h)]
  rfl

/-- A key file has the last part of the name. -/
theorem getLast_keyFile (user : String) :
    (keyFile data user).components.getLast? = some (Path.lastPart user ++ ".json") :=
  Path.getLast_join_append (t := ".json") (by decide) (c := 'j') (by decide) (by decide) _ _

/-- No user's key file is the log. -/
theorem keyFile_ne_auditPath (user : String) : keyFile data user ≠ auditPath data := by
  intro h
  have hlast : (keyFile data user).components.getLast? = _ := getLast_keyFile user
  rw [h, auditPath_eq, File.path, Path.under, File.place, List.getLast?_concat] at hlast
  have hend := congrArg (fun s => s.toList.getLast?) (Option.some.inj hlast)
  simp [String.toList_append] at hend

/-- The store of the packages. -/
def packageStore (data : Path) : PackageStore := ⟨packagesDir data⟩

variable {id : String} (h : Path.IsName id)
include h

theorem packageDir_eq : (packageStore data).packageDir id = data.under ["packages", id] := by
  rw [PackageStore.packageDir, packageStore, packagesDir_eq, Path.join_eq_under h]
  rfl

theorem sealedPath_eq : (packageStore data).sealedPath id = (File.sealedDoc id).path data := by
  rw [PackageStore.sealedPath, packageDir_eq h, Path.join_eq_under isName_sealed]
  rfl

theorem wrappedKeyPath_eq : (packageStore data).keyPath id = (File.wrappedKey id).path data := by
  rw [PackageStore.keyPath, packageDir_eq h, Path.join_eq_under isName_key]
  rfl

theorem manifestPath_eq : (packageStore data).manifestPath id = (File.manifest id).path data := by
  rw [PackageStore.manifestPath, packageDir_eq h, Path.join_eq_under isName_manifest]
  rfl

omit h in
/-- An id consists of hexadecimal digits around a hyphen. -/
theorem isName_newId {D : Codec} (hX : D.HexReadsBack) (stamp : Stamp) :
    Path.IsName (newId D stamp) := by
  have hlist : (newId D stamp).toList =
      Nat.toDigits 16 stamp.nanos ++ '-' :: (D.hexEncode stamp.idBytes.1).toList := by
    rw [newId, String.toList_append, String.toList_append, String.toList_ofList]
    simp
  apply Path.isName_of_mem (c := '-') (by simp [hlist]) (by decide)
  rw [hlist, List.mem_append, List.mem_cons]
  rintro (hmem | hmem | hmem)
  · exact notMem_toDigits (by decide) (by decide) _ hmem
  · cases hmem
  · exact absurd (hX.digits _ _ hmem) (by decide)

end Paths

/-! ## Views -/

/-- The names under the data directory that the program uses. -/
def ownNames : List String :=
  ["setup.json", "authorities.json", "revocation.json", "audit.log", "keys", "packages"]

/-- The path is one of the program's own, or below one. -/
def Own (data p : Path) : Prop := ∃ name ∈ ownNames, ∃ rest, p = data.under (name :: rest)

theorem File.own (data : Path) (f : File) : Own data (f.path data) := by
  cases f <;> exact ⟨_, by simp [ownNames], _, rfl⟩

/-- What a disk holds in the files of a deployment. -/
def view (data : Path) (d : Disk) : File → Option Bytes := fun f => d.files.lookup (f.path data)

section View

variable {data : Path} {d : Disk}

theorem view_write (f : File) (b : Bytes) :
    view data (d.write (f.path data) b) = Function.update (view data d) f (some b) := by
  funext g
  by_cases hg : g = f
  · subst hg
    rw [Function.update_self]
    exact Disk.lookup_write_self d _ b
  · rw [Function.update_of_ne hg]
    exact Disk.lookup_write_ne (fun h => hg (File.path_injective h)) d b

theorem view_write_of_not_own {p : Path} (hp : ¬ Own data p) (b : Bytes) :
    view data (d.write p b) = view data d := by
  funext g
  refine Disk.lookup_write_ne ?_ d b
  rintro rfl
  exact hp (g.own data)

@[simp] theorem view_createDirAll (p : Path) : view data (d.createDirAll p) = view data d := rfl

/-- No directory takes the place of the revocation list. -/
theorem revocation_notMem_dirs (h : File.revocation.path data ∉ d.dirs) (cs : List String)
    (hcs : ¬ ["revocation.json"] <+: cs) :
    File.revocation.path data ∉ (d.createDirAll (data.under cs)).dirs := by
  intro hmem
  rcases List.mem_append.1 hmem with hmem | hmem
  · exact h hmem
  · exact hcs (Path.under_mem_ancestors.1 (List.mem_filter.1 hmem).1)

theorem view_append (f : File) (b : Bytes) :
    view data (d.append (f.path data) b) =
      Function.update (view data d) f (some ((view data d f).getD [] ++ b)) :=
  view_write f _

theorem read_eq_of_view {f : File} {b : Bytes} (h : view data d f = some b) :
    d.read (f.path data) = .ok b := Disk.read_of_lookup h

end View

end SecureABE.Cli
