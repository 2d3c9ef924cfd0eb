import SecureABE.Audit.Log
import SecureABE.Core.Keys
import SecureABE.Foundations.HashMap
import SecureABE.Foundations.Json
import SecureABE.Foundations.Outcome
import SecureABE.Foundations.Text

/-!
# Claims and authorities

`authorities/src/lib.rs`: claims about a user, which resolve to the attributes of the scheme, and
the registry that says which authority may make which claim.
-/

namespace SecureABE.Authorities

open Rust SecureABE.Core SecureABE.Audit

/-! ## Claims -/

/-- A single attribute claim made about a user, before expansion into flat attribute strings. -/
inductive Claim
  | flag (s : String)
  | text (key value : String)
  /-- Cumulative: a value grants all thresholds up to it. -/
  | numeric (key : String) (value max : Int)
  deriving DecidableEq, Repr

namespace Claim

/-- `format!("{key}>={i}")`. -/
def atLeast (key : String) (i : ℕ) : String := key ++ ">=" ++ toString i

def resolve : Claim → List String
  | .flag s => [s]
  | .text key value => [key ++ "=" ++ value]
  | .numeric key value max =>
    let top := Max.max (Min.min value max) 0
    (List.range' 1 top.toNat).map (atLeast key)

def keyPrefix : Claim → String
  | .flag s => String.ofList ((split '=' s.toList).headD s.toList)
  | .text key _ => key
  | .numeric key _ _ => key

end Claim

/-! ## The registry -/

@[ext]
structure Authority where
  name : String
  /-- The key prefixes the authority may issue claims for, all if there are none. -/
  controls : List String
  deriving DecidableEq, Repr

def Authority.toJson (a : Authority) : Json :=
  .obj [("name", .str a.name), ("controls", .arr (a.controls.map .str))]

def Authority.fromJson (j : Json) : Json.Decoded Authority := do
  match ← Json.structFields ["name", "controls"] j with
  | [name, controls] => do
    .ok { name := ← name.asStr, controls := ← controls.asSeq Json.asStr }
  | _ => .error "invalid length"

theorem Authority.fromJson_toJson (a : Authority) : fromJson a.toJson = .ok a := by
  have hfields : Json.structFields ["name", "controls"] a.toJson = .ok [_, _] :=
    Json.structFields_obj rfl (by decide)
  have hcontrols : Json.asSeq Json.asStr (.arr (a.controls.map .str)) = .ok a.controls :=
    Json.asSeq_map fun c _ => Json.asStr_str c
  rw [fromJson, hfields]
  simp only [ok_bind, Json.asStr_str, hcontrols]

@[ext]
structure AuthorityRegistry where
  authorities : HashMap String Authority

inductive AuthorityError
  | abe (e : AbeError)
  | unknownAuthority (name : String)
  | notPermitted (name keyPrefix : String)
  | audit (e : AuditError)
  deriving DecidableEq, Repr

/-- The derived `Display`. -/
def AuthorityError.toText : AuthorityError → String
  | .abe e => e.toText
  | .audit e => e.toText
  | .unknownAuthority name => "authority '" ++ name ++ "' is not registered"
  | .notPermitted name keyPrefix =>
    "authority '" ++ name ++ "' is not permitted to issue attribute '" ++ keyPrefix ++ "'"

namespace AuthorityRegistry

def new : AuthorityRegistry := ⟨∅⟩

def toJson (reg : AuthorityRegistry) : Json :=
  .obj [("authorities", .obj (HashMap.mapValues Authority.toJson reg.authorities))]

def fromJson (j : Json) : Json.Decoded AuthorityRegistry := do
  match ← Json.structFields ["authorities"] j with
  | [authorities] => do
    let entries ← authorities.asMap Authority.fromJson
    .ok ⟨HashMap.collect entries⟩
  | _ => .error "invalid length"

/-- **A printed registry is read back.** -/
theorem fromJson_toJson (reg : AuthorityRegistry) : fromJson reg.toJson = .ok reg := by
  have hfields : Json.structFields ["authorities"] reg.toJson = .ok [_] :=
    Json.structFields_obj rfl (by decide)
  have hentries : Json.asMap Authority.fromJson
      (.obj (HashMap.mapValues Authority.toJson reg.authorities)) = .ok reg.authorities.iter :=
    Json.asMap_mapValues fun e _ => Authority.fromJson_toJson e.2
  rw [fromJson, hfields]
  simp only [ok_bind, hentries, HashMap.collect_iter]

theorem depth_toJson (reg : AuthorityRegistry) : reg.toJson.depth ≤ 4 := by
  have hauthority : ∀ a : Authority, a.toJson.depth ≤ 2 := fun a =>
    Json.depth_obj_le.2 (List.forall_mem_cons.2
      ⟨Nat.zero_le _, List.forall_mem_singleton.2 (Json.depth_arr_map_str a.controls)⟩)
  exact Json.depth_obj_le.2
    (List.forall_mem_singleton.2 (Json.depth_obj_mapValues hauthority reg.authorities))

def register (reg : AuthorityRegistry) (name : String) (controls : List String) : AuthorityRegistry :=
  ⟨reg.authorities.insert name { name, controls }⟩

def checkPermission (reg : AuthorityRegistry) (authority : String) (claim : Claim) :
    Outcome AuthorityError Unit := do
  let a ← Outcome.okOr (.unknownAuthority authority) (reg.authorities.lookup authority)
  if a.controls.isEmpty then .ok ()
  else
    let keyPrefix := claim.keyPrefix
    if a.controls.any (· == keyPrefix) then .ok ()
    else Outcome.err (.notPermitted authority keyPrefix)

end AuthorityRegistry

end SecureABE.Authorities
