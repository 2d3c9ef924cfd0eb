import SecureABE.Foundations.Json
import SecureABE.Policy.Tree

/-!
# The JSON form of an access tree

What `#[derive(Serialize, Deserialize)]` on `AccessTree` (`policy/src/tree.rs`) writes and reads: the
externally tagged form, `{"Leaf": attr}` and `{"Gate": {"threshold": k, "children": [..]}}`. Every
gate adds three levels of nesting, the object with the tag, the object with the fields and the array
of the children (`depth_toJson`).
-/

namespace SecureABE.Policy.AccessTree

/-! ## Encoding -/

mutual

/-- The derived `Serialize`. -/
def toJson : AccessTree → Json
  | .leaf a => .obj [("Leaf", .str a)]
  | .gate threshold children =>
    .obj [("Gate", .obj [("threshold", .num threshold), ("children", .arr (toJsonList children))])]

/-- The encodings of the children of a gate. -/
def toJsonList : List AccessTree → List Json
  | [] => []
  | c :: cs => c.toJson :: toJsonList cs

end

theorem toJsonList_eq (cs : List AccessTree) : toJsonList cs = cs.map toJson := by
  induction cs with
  | nil => rfl
  | cons c cs ih => rw [toJsonList, ih, List.map_cons]

/-! ## Decoding -/

mutual

/-- The derived `Deserialize`: an object whose only member is the variant. -/
def fromJson : Json → Json.Decoded AccessTree
  | .obj [(tag, j)] =>
    if tag = "Leaf" then j.asStr.map .leaf
    else if tag = "Gate" then gateFromJson j
    else .error "unknown variant"
  | _ => .error "invalid value: expected a variant of AccessTree"
termination_by structural j => j

/-- The fields of the variant `Gate`. -/
def gateFromJson : Json → Json.Decoded AccessTree
  | .obj members => membersFromJson members none none
  | .arr [threshold, children] => do
    let k ← threshold.asUnsigned 64
    let cs ← childrenFromJson children
    .ok (.gate k cs)
  | _ => .error "invalid length or type: expected the struct variant Gate"
termination_by structural j => j

/-- The members of an object are visited in order; each field is filled once. -/
def membersFromJson : List (String × Json) → Option ℕ → Option (List AccessTree) →
    Json.Decoded AccessTree
  | [], some k, some cs => .ok (.gate k cs)
  | [], none, _ => .error "missing field threshold"
  | [], _, none => .error "missing field children"
  | (name, j) :: members, k, cs =>
    if name = "threshold" then
      if k.isSome then .error "duplicate field threshold"
      else match j.asUnsigned 64 with
        | .ok k => membersFromJson members (some k) cs
        | .error e => .error e
    else if name = "children" then
      if cs.isSome then .error "duplicate field children"
      else match childrenFromJson j with
        | .ok cs => membersFromJson members k (some cs)
        | .error e => .error e
    else membersFromJson members k cs
termination_by structural members => members

/-- The field `children`. -/
def childrenFromJson : Json → Json.Decoded (List AccessTree)
  | .arr elems => listFromJson elems
  | _ => .error "invalid type: expected a sequence"
termination_by structural j => j

/-- The elements of the field `children`. -/
def listFromJson : List Json → Json.Decoded (List AccessTree)
  | [] => .ok []
  | j :: js => do
    let c ← fromJson j
    let cs ← listFromJson js
    .ok (c :: cs)
termination_by structural js => js

end

/-- A gate in a program has a threshold of the type `usize`. -/
def ThresholdsFit (t : AccessTree) : Prop := ∀ g ∈ t.gates, g.1 < 2 ^ 64

/-- **Decoding inverts encoding.** -/
theorem fromJson_toJson (t : AccessTree) (ht : t.ThresholdsFit) : fromJson t.toJson = .ok t := by
  induction t using induct with
  | leaf a => simp [toJson, fromJson, Except.map]
  | gate k cs ih =>
    simp only [ThresholdsFit, gates_gate, List.forall_mem_cons, List.mem_flatMap] at ht
    have hcs : listFromJson (toJsonList cs) = .ok cs := by
      have hall : ∀ c ∈ cs, fromJson c.toJson = .ok c := fun c hc =>
        ih c hc fun g hg => ht.2 g ⟨c, hc, hg⟩
      clear ih ht
      induction cs with
      | nil => rfl
      | cons c cs ihcs =>
        unfold toJsonList listFromJson
        rw [hall c (by simp), ihcs fun d hd => hall d (by simp [hd])]
        rfl
    simp [toJson, fromJson, gateFromJson, membersFromJson, childrenFromJson,
      Json.asUnsigned_num ht.1, hcs]

/-- **Trees with one encoding are equal.** -/
theorem toJson_injective : Function.Injective toJson := by
  intro t
  induction t using induct with
  | leaf a =>
    intro u h
    cases u with
    | leaf b =>
      simp only [toJson, Json.obj.injEq, List.cons.injEq, Prod.mk.injEq, Json.str.injEq, true_and,
        and_true] at h
      rw [h]
    | gate k cs => simp [toJson] at h
  | gate k cs ih =>
    intro u h
    cases u with
    | leaf b => simp [toJson] at h
    | gate k' cs' =>
      simp only [toJson, Json.obj.injEq, List.cons.injEq, Prod.mk.injEq, Json.num.injEq,
        Json.arr.injEq, true_and, and_true] at h
      obtain ⟨rfl, hcs⟩ := h
      rw [toJsonList_eq, toJsonList_eq] at hcs
      suffices cs = cs' by rw [this]
      clear k
      induction cs generalizing cs' with
      | nil => exact (List.map_eq_nil_iff.1 hcs.symm).symm
      | cons c cs ihcs =>
        cases cs' with
        | nil => simp at hcs
        | cons c' cs' =>
          rw [List.map_cons, List.map_cons, List.cons.injEq] at hcs
          rw [ih c (by simp) hcs.1, ihcs (fun d hd => ih d (by simp [hd])) cs' hcs.2]

/-! ## Depth -/

mutual

/-- The number of gates on the longest path from the root to a leaf. -/
def gateDepth : AccessTree → ℕ
  | .leaf _ => 0
  | .gate _ children => 1 + gateDepthOf children

/-- The greatest gate depth of the trees of a list. -/
def gateDepthOf : List AccessTree → ℕ
  | [] => 0
  | c :: cs => max c.gateDepth (gateDepthOf cs)

end

/-- **Every gate adds three levels**, if no gate is without children. -/
theorem depth_toJson (t : AccessTree) (ht : ∀ g ∈ t.gates, 1 ≤ g.2) :
    t.toJson.depth = 3 * t.gateDepth + 1 := by
  induction t using induct with
  | leaf a => simp [toJson, gateDepth, Json.depth, Json.depthMembers]
  | gate k cs ih =>
    simp only [gates_gate, List.forall_mem_cons, List.mem_flatMap] at ht
    obtain ⟨hlen, hgates⟩ := ht
    have hall : ∀ c ∈ cs, c.toJson.depth = 3 * c.gateDepth + 1 := fun c hc =>
      ih c hc fun g hg => hgates g ⟨c, hc, hg⟩
    -- the deepest child decides
    have hmax : ∀ cs : List AccessTree, 1 ≤ cs.length →
        (∀ c ∈ cs, c.toJson.depth = 3 * c.gateDepth + 1) →
          Json.depthElems (toJsonList cs) = 3 * gateDepthOf cs + 1 := by
      intro cs
      induction cs with
      | nil => intro hlen; simp at hlen
      | cons c cs ihcs =>
        intro _ hcs
        rw [toJsonList, Json.depthElems, gateDepthOf, hcs c (by simp)]
        cases cs with
        | nil => simp [toJsonList, Json.depthElems, gateDepthOf]
        | cons d ds =>
          rw [ihcs (by simp) fun e he => hcs e (by simp [he])]
          omega
    have hchildren := hmax cs hlen hall
    simp only [toJson, gateDepth, Json.depth, Json.depthMembers, hchildren]
    omega

end SecureABE.Policy.AccessTree
