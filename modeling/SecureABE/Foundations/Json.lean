import SecureABE.Foundations.HashMap
import Mathlib.Data.List.Nodup
import Mathlib.Tactic.Linarith

/-!
# JSON values

The data model shared by a serializer and a deserializer: what `#[derive(Serialize)]` hands to the
printer of a JSON library, and what its parser hands to `#[derive(Deserialize)]`. The only numbers are
the nonnegative integers: programs here write no others, and a parser can return `null` for one, since
the decoders refuse both.

`depth` counts the nested arrays and objects, the quantity a recursion limit bounds. `structFields`
is the derived decoder of a structure with named fields: an object with each field exactly once and
unknown fields ignored, or an array of the fields in order.
-/

/-- A JSON value. -/
inductive Json
  | null
  | bool (b : Bool)
  | num (n : ℕ)
  | str (s : String)
  | arr (elems : List Json)
  | obj (members : List (String × Json))
  deriving Repr, Inhabited

namespace Json

/-! ## Depth -/

mutual

/-- The number of nested arrays and objects. -/
def depth : Json → ℕ
  | .arr elems => 1 + depthElems elems
  | .obj members => 1 + depthMembers members
  | _ => 0
termination_by structural j => j

/-- The greatest depth of the elements of an array. -/
def depthElems : List Json → ℕ
  | [] => 0
  | j :: js => max j.depth (depthElems js)
termination_by structural js => js

/-- The greatest depth of the members of an object. -/
def depthMembers : List (String × Json) → ℕ
  | [] => 0
  | (_, j) :: ms => max j.depth (depthMembers ms)
termination_by structural ms => ms

end

theorem depthElems_le {js : List Json} {n : ℕ} :
    depthElems js ≤ n ↔ ∀ j ∈ js, j.depth ≤ n := by
  induction js with
  | nil => simp [depthElems]
  | cons j js ih => simp [depthElems, ih]

theorem depthMembers_le {ms : List (String × Json)} {n : ℕ} :
    depthMembers ms ≤ n ↔ ∀ m ∈ ms, m.2.depth ≤ n := by
  induction ms with
  | nil => simp [depthMembers]
  | cons m ms ih =>
    obtain ⟨k, j⟩ := m
    simp [depthMembers, ih]

theorem depth_arr_le {js : List Json} {n : ℕ} :
    (arr js).depth ≤ n + 1 ↔ ∀ j ∈ js, j.depth ≤ n := by
  rw [depth, Nat.add_comm, Nat.add_le_add_iff_right, depthElems_le]

theorem depth_obj_le {ms : List (String × Json)} {n : ℕ} :
    (obj ms).depth ≤ n + 1 ↔ ∀ m ∈ ms, m.2.depth ≤ n := by
  rw [depth, Nat.add_comm, Nat.add_le_add_iff_right, depthMembers_le]

theorem depth_arr_map_str (l : List String) : (arr (l.map str)).depth ≤ 1 :=
  depth_arr_le.2 fun j hj => by
    obtain ⟨s, -, rfl⟩ := List.mem_map.1 hj
    exact le_rfl

theorem depth_obj_mapValues {V : Type} {f : V → Json} {n : ℕ} (h : ∀ v, (f v).depth ≤ n)
    (m : Rust.HashMap String V) : (obj (Rust.HashMap.mapValues f m)).depth ≤ n + 1 :=
  depth_obj_le.2 fun e he => by
    obtain ⟨e', -, rfl⟩ := List.mem_map.1 he
    exact h e'.2

/-! ## Decoding -/

/-- The result of a derived decoder; the error is the message of the decoder. -/
abbrev Decoded (α : Type) := Except String α

/-- A string. -/
def asStr : Json → Decoded String
  | .str s => .ok s
  | _ => .error "invalid type: expected a string"

/-- An unsigned integer of the given number of bits. -/
def asUnsigned (bits : ℕ) : Json → Decoded ℕ
  | .num n => if n < 2 ^ bits then .ok n else .error "invalid value: integer out of range"
  | _ => .error "invalid type: expected an unsigned integer"

/-- A byte. -/
def asByte (j : Json) : Decoded UInt8 := do
  let n ← asUnsigned 8 j
  .ok (UInt8.ofNat n)

/-- An unsigned integer of 64 bits. -/
def asU64 (j : Json) : Decoded UInt64 := do
  let n ← asUnsigned 64 j
  .ok (UInt64.ofNat n)

/-- The values of the elements of an array. -/
def elemsWith {α : Type} (f : Json → Decoded α) : List Json → Decoded (List α)
  | [] => .ok []
  | j :: js => do
    let a ← f j
    let as ← elemsWith f js
    .ok (a :: as)

/-- A sequence. -/
def asSeq {α : Type} (f : Json → Decoded α) : Json → Decoded (List α)
  | .arr js => elemsWith f js
  | _ => .error "invalid type: expected a sequence"

/-- The keys of an object with the values of its members. -/
def membersWith {α : Type} (f : Json → Decoded α) : List (String × Json) → Decoded (List (String × α))
  | [] => .ok []
  | (k, j) :: ms => do
    let a ← f j
    let as ← membersWith f ms
    .ok ((k, a) :: as)

/-- A map with string keys, as the list of its entries. -/
def asMap {α : Type} (f : Json → Decoded α) : Json → Decoded (List (String × α))
  | .obj ms => membersWith f ms
  | _ => .error "invalid type: expected a map"

/-- The only member of an object under a name. -/
def field (ms : List (String × Json)) (name : String) : Decoded Json :=
  match ms.filter (·.1 = name) with
  | [] => .error ("missing field " ++ name)
  | [m] => .ok m.2
  | _ => .error ("duplicate field " ++ name)

/-- The fields of a structure, in the order of their names. -/
def structFields (names : List String) : Json → Decoded (List Json)
  | .obj ms => names.mapM (field ms)
  | .arr js => if js.length = names.length then .ok js else .error "invalid length"
  | _ => .error "invalid type: expected a struct"

@[simp] theorem asStr_str (s : String) : asStr (.str s) = .ok s := rfl

theorem asUnsigned_num {bits n : ℕ} (h : n < 2 ^ bits) : asUnsigned bits (.num n) = .ok n :=
  if_pos h

@[simp] theorem asByte_num (b : UInt8) : asByte (.num b.toNat) = .ok b := by
  rw [asByte, asUnsigned_num b.toNat_lt]
  exact congrArg Except.ok UInt8.ofNat_toNat

@[simp] theorem asU64_num (n : UInt64) : asU64 (.num n.toNat) = .ok n := by
  rw [asU64, asUnsigned_num n.toNat_lt]
  exact congrArg Except.ok UInt64.ofNat_toNat

/-- Decoding what an encoder wrote element by element. -/
theorem asSeq_map {α : Type} {f : Json → Decoded α} {g : α → Json} {as : List α}
    (h : ∀ a ∈ as, f (g a) = .ok a) : asSeq f (.arr (as.map g)) = .ok as := by
  rw [asSeq]
  induction as with
  | nil => rfl
  | cons a as ih =>
    rw [List.map_cons, elemsWith, h a (by simp), ih fun b hb => h b (by simp [hb])]
    rfl

theorem asMap_map {α : Type} {f : Json → Decoded α} {g : α → Json} {as : List (String × α)}
    (h : ∀ a ∈ as, f (g a.2) = .ok a.2) :
    asMap f (.obj (as.map fun a => (a.1, g a.2))) = .ok as := by
  rw [asMap]
  induction as with
  | nil => rfl
  | cons a as ih =>
    obtain ⟨k, a⟩ := a
    rw [List.map_cons, membersWith, h (k, a) (by simp), ih fun b hb => h b (by simp [hb])]
    rfl

/-- Decoding what an encoder wrote of a hash map. -/
theorem asMap_mapValues {α : Type} {f : Json → Decoded α} {g : α → Json}
    {m : Rust.HashMap String α} (h : ∀ e ∈ m.iter, f (g e.2) = .ok e.2) :
    asMap f (.obj (Rust.HashMap.mapValues g m)) = .ok m.iter := asMap_map h

/-- An object without the first field of a structure is refused. -/
theorem structFields_missing {name : String} {ms : List (String × Json)}
    (h : name ∉ ms.map Prod.fst) (names : List String) :
    structFields (name :: names) (.obj ms) = .error ("missing field " ++ name) := by
  have hnone : ms.filter (·.1 = name) = [] := by
    refine List.filter_eq_nil_iff.2 fun m hm hname => h ?_
    exact List.mem_map.2 ⟨m, hm, by simpa using hname⟩
  rw [structFields, List.mapM_cons, field, hnone]
  rfl

/-- Encoding a structure and reading its fields back. -/
theorem structFields_obj {names : List String} {ms : List (String × Json)}
    (hnames : ms.map Prod.fst = names) (h : names.Nodup) :
    structFields names (.obj ms) = .ok (ms.map Prod.snd) := by
  subst hnames
  have key : ∀ m ∈ ms, field ms m.1 = .ok m.2 := by
    intro m hm
    have hf : ms.filter (·.1 = m.1) = [m] := by
      refine List.perm_singleton.1 ((List.perm_ext_iff_of_nodup ?_ (by simp)).2 fun m' => ?_)
      · exact (List.Nodup.of_map _ h).filter _
      · simp only [List.mem_filter, decide_eq_true_eq, List.mem_singleton]
        exact ⟨fun h' => List.inj_on_of_nodup_map h h'.1 hm h'.2, by rintro rfl; exact ⟨hm, rfl⟩⟩
    rw [field, hf]
  unfold structFields
  clear h
  suffices ∀ l : List (String × Json), (∀ m ∈ l, field ms m.1 = .ok m.2) →
      (l.map Prod.fst).mapM (field ms) = (.ok (l.map Prod.snd) : Decoded _) from this ms key
  intro l hl
  induction l with
  | nil => rfl
  | cons m l ih =>
    rw [List.map_cons, List.mapM_cons, hl m (by simp), ih fun m' hm' => hl m' (by simp [hm'])]
    rfl

end Json
