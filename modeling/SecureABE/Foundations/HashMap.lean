import Mathlib.Data.List.AList

/-!
# Hash maps

`std::collections::HashMap` is an association list without repeated keys (Mathlib's `AList`, whose
`lookup`, `insert` and `∈` are `get`, `insert` and `contains_key`). The iteration order of the
standard library is unspecified; here `iter` yields the entries oldest first, so that collecting
what was iterated gives the map back (`collect_iter`).
-/

namespace Rust

universe u v w

/-- A hash map from `K` to `V`. -/
abbrev HashMap (K : Type u) (V : Type v) := AList (fun _ : K => V)

namespace HashMap

variable {K : Type u} {V : Type v} {W : Type w}

/-- `HashMap::iter`: the entries, oldest first. -/
def iter (m : HashMap K V) : List (K × V) := m.entries.reverse.map fun e => (e.1, e.2)

/-- `iter().map(..)` with the keys kept. -/
def mapValues (f : V → W) (m : HashMap K V) : List (K × W) := m.iter.map fun e => (e.1, f e.2)

theorem keys_mapValues (f : V → W) (m : HashMap K V) :
    (mapValues f m).map Prod.fst = m.iter.map Prod.fst := by
  simp [mapValues]

theorem mem_keys_iter {m : HashMap K V} {k : K} : k ∈ m.iter.map Prod.fst ↔ k ∈ m := by
  simp only [iter, List.map_map, List.map_reverse, List.mem_reverse, AList.mem_keys, AList.keys,
    List.keys]
  rfl

variable [DecidableEq K]

/-- `collect` into a map: insertion of the pairs one by one. -/
def collect (l : List (K × V)) : HashMap K V := l.foldl (fun m e => m.insert e.1 e.2) ∅

theorem exists_lookup_of_mem {m : HashMap K V} {k : K} (h : k ∈ m) : ∃ v, m.lookup k = some v :=
  Option.isSome_iff_exists.1 (AList.lookup_isSome.2 h)

theorem mem_of_lookup {m : HashMap K V} {k : K} {v : V} (h : m.lookup k = some v) : k ∈ m :=
  AList.lookup_isSome.1 (by rw [h]; rfl)

/-- Inserting entries with fresh and pairwise distinct keys puts them in front. -/
theorem entries_foldl_insert (l : List (K × V)) (m : HashMap K V)
    (hd : (l.map Prod.fst).Nodup) (hm : ∀ k ∈ l.map Prod.fst, k ∉ m) :
    (l.foldl (fun m e => m.insert e.1 e.2) m : HashMap K V).entries =
      (l.map fun e => (⟨e.1, e.2⟩ : Sigma fun _ : K => V)).reverse ++ m.entries := by
  induction l generalizing m with
  | nil => rfl
  | cons e l ih =>
    rw [List.map_cons, List.nodup_cons] at hd
    have hfresh : ∀ k ∈ l.map Prod.fst, k ∉ m.insert e.1 e.2 := by
      intro k hk hmem
      rcases AList.mem_insert _ |>.1 hmem with rfl | hk'
      · exact hd.1 hk
      · exact hm k (by simp [hk]) hk'
    rw [List.foldl_cons, ih _ hd.2 hfresh,
      AList.entries_insert_of_notMem (hm e.1 (by simp)), List.map_cons, List.reverse_cons]
    simp

omit [DecidableEq K] in
theorem nodup_keys_iter (m : HashMap K V) : (m.iter.map Prod.fst).Nodup := by
  simpa [iter, Function.comp_def, List.NodupKeys, List.keys] using m.nodupKeys

/-- Collecting the iterated entries gives the map back. -/
theorem collect_iter (m : HashMap K V) : collect m.iter = m := by
  apply AList.ext
  rw [collect, entries_foldl_insert _ _ (nodup_keys_iter m) fun k _ => AList.notMem_empty k]
  simp [iter, Function.comp_def]

/-- Collecting pairs with distinct keys keeps them. -/
theorem iter_collect {l : List (K × V)} (hd : (l.map Prod.fst).Nodup) : (collect l).iter = l := by
  unfold iter collect
  rw [entries_foldl_insert _ _ hd fun k _ => AList.notMem_empty k]
  simp [Function.comp_def]

theorem iter_collect_mapValues (f : V → W) (m : HashMap K V) :
    (collect (mapValues f m)).iter = mapValues f m :=
  iter_collect (by rw [keys_mapValues]; exact nodup_keys_iter m)

/-- A loop that inserts the entries of a list, each value made by a computation that may fail. -/
def insertAll {M : Type → Type} [Monad M] {K V W : Type} [DecidableEq K] (f : V → M W) :
    List (K × V) → HashMap K W → M (HashMap K W)
  | [], m => pure m
  | (k, v) :: l, m => do
    let w ← f v
    insertAll f l (m.insert k w)

/-- Values that a fallible function reads back are collected again. -/
theorem insertAll_mapValues {ε K V W : Type} [DecidableEq K] {f : W → Except ε V} {g : V → W}
    {m : HashMap K V} (h : ∀ v, f (g v) = .ok v) :
    insertAll f (collect (mapValues g m)).iter ∅ = .ok m := by
  have loop : ∀ (l : List (K × V)) (m₀ : HashMap K V),
      insertAll f (l.map fun e => (e.1, g e.2)) m₀ =
        .ok (l.foldl (fun m e => m.insert e.1 e.2) m₀) := by
    intro l
    induction l with
    | nil => intro m₀; rfl
    | cons e l ih =>
      intro m₀
      rw [List.map_cons, insertAll, h]
      exact ih _
  rw [iter_collect_mapValues, mapValues, loop]
  exact congrArg Except.ok (collect_iter m)

end HashMap

end Rust
