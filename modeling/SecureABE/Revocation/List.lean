import SecureABE.Core.Crates
import SecureABE.Foundations.FileSystem

/-!
# The revocation list

`revocation/src/lib.rs`: an epoch for each attribute, which is part of the tag that the scheme uses
for the attribute, and the users to whom no key is issued any more. `revoke_attribute` and
`revoke_user` change the list in memory and then save it; the list they leave is part of their
result, whether the save succeeds or not. Epochs are counted in the arithmetic of a release build.

A tag determines its attribute and its epoch, whatever characters the attribute consists of
(`tag_eq_tag`).
-/

namespace SecureABE.Revocation

open Rust SecureABE.Core

inductive RevocationError
  | io (e : IoError)
  | serde (msg : String)
  deriving DecidableEq, Repr

/-- The derived `Display`. -/
def RevocationError.toText : RevocationError → String
  | .io e => "io error: " ++ e.toText
  | .serde msg => "serialization error: " ++ msg

/-! ## The stored state -/

@[ext]
structure RevocationState where
  epochs : HashMap String UInt64
  revokedUsers : List String

namespace RevocationState

/-- The derived `Default`. -/
instance : Inhabited RevocationState := ⟨⟨∅, []⟩⟩

/-- The derived `Serialize`. -/
def toJson (st : RevocationState) : Json :=
  .obj [("epochs", .obj (HashMap.mapValues (fun n => .num n.toNat) st.epochs)),
    ("revoked_users", .arr (st.revokedUsers.map .str))]

/-- The derived `Deserialize`. -/
def fromJson (j : Json) : Json.Decoded RevocationState := do
  match ← Json.structFields ["epochs", "revoked_users"] j with
  | [epochs, users] => do
    let epochs ← epochs.asMap Json.asU64
    let revokedUsers ← users.asSeq Json.asStr
    .ok { epochs := HashMap.collect epochs, revokedUsers }
  | _ => .error "invalid length"

/-- **A printed state is read back.** -/
theorem fromJson_toJson (st : RevocationState) : fromJson st.toJson = .ok st := by
  have hfields : Json.structFields ["epochs", "revoked_users"] st.toJson = .ok [_, _] :=
    Json.structFields_obj rfl (by decide)
  have hepochs : Json.asMap Json.asU64
      (.obj (HashMap.mapValues (fun n => .num n.toNat) st.epochs)) = .ok st.epochs.iter :=
    Json.asMap_mapValues fun e _ => Json.asU64_num e.2
  have husers : Json.asSeq Json.asStr (.arr (st.revokedUsers.map .str)) = .ok st.revokedUsers :=
    Json.asSeq_map fun u _ => Json.asStr_str u
  rw [fromJson, hfields]
  simp only [ok_bind, hepochs, husers, HashMap.collect_iter]

theorem depth_toJson (st : RevocationState) : st.toJson.depth ≤ 2 := by
  have hepoch : ∀ n : UInt64, (Json.num n.toNat).depth ≤ 0 := fun _ => le_rfl
  exact Json.depth_obj_le.2 (List.forall_mem_cons.2 ⟨Json.depth_obj_mapValues hepoch st.epochs,
    List.forall_mem_singleton.2 (Json.depth_arr_map_str st.revokedUsers)⟩)

end RevocationState

/-! ## The list -/

structure RevocationList where
  path : Path
  state : RevocationState

variable (D : Codec)

/-- The text of the file, decoded. -/
def RevocationState.decode (s : String) : Outcome RevocationError RevocationState :=
  Outcome.ofExcept .serde (D.fromStr s >>= RevocationState.fromJson)

/-- The state that is stored at a path; the empty one if there is no file. -/
def RevocationState.load (path : Path) : FileCmd RevocationError RevocationState := do
  let there ← Fs.exist path
  if there = true then do
    let s ← Cmd.mapErr .io (Fs.readToString path)
    Cmd.ofOutcome (RevocationState.decode D s)
  else pure default

def RevocationList.open (path : Path) : FileCmd RevocationError RevocationList := do
  let state ← RevocationState.load D path
  pure { path, state }

/-- Opening a list changes nothing on the disk. -/
theorem reads_open (path : Path) (d : Disk) :
    Fs.Reads (RevocationList.open D path) d (Fs.exec (RevocationList.open D path) d).1 := by
  obtain ⟨o, hload⟩ : ∃ o, Fs.Reads (RevocationState.load D path) d o :=
    ⟨_, (Fs.reads_exist path d).bind_ok (Fs.Reads.ite ((Fs.reads_readToString path d).mapErr.bind
      fun s => Fs.reads_ofOutcome (RevocationState.decode D s) d) (Fs.reads_pure default d))⟩
  have hopen : Fs.Reads (RevocationList.open D path) d _ := hload.bind fun state => Fs.reads_pure _ d
  rwa [hopen.outcome]

namespace RevocationList

/-- Current epoch for a base attribute name (before tagging). -/
def currentEpoch (rl : RevocationList) (baseAttribute : String) : UInt64 :=
  (rl.state.epochs.lookup baseAttribute).getD 0

/-- Applies the current epoch tag to a base attribute string. -/
def tag (rl : RevocationList) (baseAttribute : String) : String :=
  baseAttribute ++ "@epoch" ++ toString (rl.currentEpoch baseAttribute).toNat

def isUserRevoked (rl : RevocationList) (subject : String) : Bool :=
  rl.state.revokedUsers.any (· == subject)

/-- The contents of the file. -/
def encode (st : RevocationState) : Bytes := utf8 (D.toStringPretty st.toJson)

def save (rl : RevocationList) : FileCmd RevocationError Unit :=
  Cmd.mapErr .io (Fs.write rl.path (encode D rl.state))

/-- The list with the next epoch for an attribute. -/
def bumped (rl : RevocationList) (baseAttribute : String) : RevocationList :=
  { rl with state := { rl.state with
      epochs := rl.state.epochs.insert baseAttribute (rl.currentEpoch baseAttribute + 1) } }

theorem currentEpoch_bumped_self (rl : RevocationList) (baseAttribute : String) :
    (rl.bumped baseAttribute).currentEpoch baseAttribute = rl.currentEpoch baseAttribute + 1 := by
  rw [currentEpoch, bumped, AList.lookup_insert, Option.getD_some]

theorem currentEpoch_bumped_ne {a baseAttribute : String} (h : a ≠ baseAttribute) (rl : RevocationList) :
    (rl.bumped baseAttribute).currentEpoch a = rl.currentEpoch a := by
  unfold currentEpoch bumped
  rw [AList.lookup_insert_ne h]

/-- Revokes an attribute by bumping its epoch. -/
def revokeAttribute (rl : RevocationList) (baseAttribute : String) :
    Prog FileOp.Reply (Outcome RevocationError UInt64 × RevocationList) :=
  let next := rl.currentEpoch baseAttribute + 1
  let rl := rl.bumped baseAttribute
  Prog.bind (save D rl) fun saved => .pure (saved.map fun _ => next, rl)

/-- The list with a user among the revoked ones. -/
def withUser (rl : RevocationList) (subject : String) : RevocationList :=
  if rl.state.revokedUsers.any (· == subject) then rl
  else { rl with state := { rl.state with revokedUsers := rl.state.revokedUsers ++ [subject] } }

theorem path_withUser (rl : RevocationList) (subject : String) :
    (rl.withUser subject).path = rl.path := by
  unfold withUser
  split_ifs <;> rfl

theorem currentEpoch_withUser (rl : RevocationList) (subject a : String) :
    (rl.withUser subject).currentEpoch a = rl.currentEpoch a := by
  unfold withUser
  split_ifs <;> rfl

theorem isUserRevoked_withUser (rl : RevocationList) (subject user : String) :
    (rl.withUser subject).isUserRevoked user = true ↔ rl.isUserRevoked user = true ∨ subject = user := by
  unfold isUserRevoked withUser
  split_ifs with h
  · refine ⟨Or.inl, ?_⟩
    rintro (hu | rfl)
    · exact hu
    · exact h
  · simp

def revokeUser (rl : RevocationList) (subject : String) :
    Prog FileOp.Reply (Outcome RevocationError Unit × RevocationList) :=
  let rl := rl.withUser subject
  Prog.bind (save D rl) fun saved => .pure (saved, rl)

end RevocationList

/-- **A tag determines** its attribute and its epoch. -/
theorem tag_eq_tag {rl rl' : RevocationList} {a b : String} :
    rl.tag a = rl'.tag b ↔ a = b ∧ rl.currentEpoch a = rl'.currentEpoch b := by
  constructor
  · intro h
    have hlist : (a.toList ++ ['@', 'e', 'p', 'o', 'c']) ++
        'h' :: (toString (rl.currentEpoch a).toNat).toList =
          (b.toList ++ ['@', 'e', 'p', 'o', 'c']) ++
            'h' :: (toString (rl'.currentEpoch b).toNat).toList := by
      have := congrArg String.toList h
      simpa [RevocationList.tag] using this
    obtain ⟨hbase, -, hdigits⟩ := append_cons_inj rfl rfl (fun _ => isDigit_of_mem_toString)
      (fun _ => isDigit_of_mem_toString) hlist
    have hepoch := toString_nat_injective (String.toList_injective hdigits)
    exact ⟨String.toList_injective (List.append_cancel_right hbase), UInt64.toNat_inj.1 hepoch⟩
  · rintro ⟨rfl, h⟩
    rw [RevocationList.tag, RevocationList.tag, h]

end SecureABE.Revocation
