import SecureABE.Foundations.FileSystem

/-!
# Where a text leads

`Path.join` works off `.` and `..` against the base. What this comes to can be read off the text: some
steps up, and then down along some names (`route`); an absolute text starts at the root instead
(`join_eq_route`). So it can be said of a text whether it leads to an entry of a directory
(`LeadsInto`): down along the part of the directory's own path that it has left, and one name more.
-/

namespace Rust.Path

/-- One part of a text, after some steps up and some names down. -/
def climb (at' : ℕ × List String) (c : String) : ℕ × List String :=
  if c = "" ∨ c = "." then at'
  else if c = ".." then (if at'.2 = [] then (at'.1 + 1, []) else (at'.1, at'.2.dropLast))
  else (at'.1, at'.2 ++ [c])

/-- How many directories up a text leads, and along which names down from there. -/
def route (s : String) : ℕ × List String := (parts s).foldl climb (0, [])

/-- The directory that a text starts from. -/
def start (p : Path) (s : String) : List String :=
  if s.toList.head? = some '/' then [] else p.components

theorem push_climb (base : List String) (at' : ℕ × List String) (c : String) :
    push (base.take (base.length - at'.1) ++ at'.2) c =
      base.take (base.length - (climb at' c).1) ++ (climb at' c).2 := by
  obtain ⟨up, names⟩ := at'
  unfold push climb
  split_ifs with hskip hdots hnames
  · rfl
  · subst hnames
    have hdrop : (base.take (base.length - up)).dropLast = base.take (base.length - (up + 1)) := by
      rw [List.dropLast_eq_take, List.length_take, List.take_take]
      congr 1
      omega
    simpa using hdrop
  · exact List.dropLast_append_of_ne_nil hnames
  · exact List.append_assoc _ _ _

theorem foldl_push (base : List String) (cs : List String) (at' : ℕ × List String) :
    cs.foldl push (base.take (base.length - at'.1) ++ at'.2) =
      base.take (base.length - (cs.foldl climb at').1) ++ (cs.foldl climb at').2 := by
  induction cs generalizing at' with
  | nil => rfl
  | cons c cs ih => rw [List.foldl_cons, push_climb, ih, List.foldl_cons]

/-- **Joining a text** goes up and then down from where it starts. -/
theorem join_eq_route (p : Path) (s : String) : p.join s =
    ⟨(p.start s).take ((p.start s).length - (route s).1) ++ (route s).2⟩ := by
  have h := foldl_push (p.start s) (parts s) (0, [])
  rw [Nat.sub_zero, List.take_length, List.append_nil] at h
  rw [join, ← start, h, route]

/-- The part of the path of a directory that a text has left. -/
def behind (p : Path) (s : String) : List String :=
  if s.toList.head? = some '/' then p.components
  else p.components.drop (p.components.length - (route s).1)

/-- A text leads into a directory: down along the part of its path that the text has left, and one name
more. -/
def LeadsInto (p : Path) (s : String) : Prop := (route s).2 ≠ [] ∧ (route s).2.dropLast = p.behind s

instance (p : Path) (s : String) : Decidable (p.LeadsInto s) := by
  unfold LeadsInto
  infer_instance

/-- **What leads into a directory** is joined to one of its entries. -/
theorem leadsInto_iff {p : Path} {s : String} : p.LeadsInto s ↔ ∃ c, p.join s = p.under [c] := by
  have hnames : p.LeadsInto s ↔ ∃ c, (route s).2 = p.behind s ++ [c] := by
    constructor
    · rintro ⟨hne, hlast⟩
      exact ⟨(route s).2.getLast hne, by rw [← hlast, List.dropLast_concat_getLast hne]⟩
    · rintro ⟨c, hc⟩
      rw [LeadsInto, hc]
      exact ⟨List.concat_ne_nil c _, List.dropLast_concat⟩
  rw [hnames, join_eq_route, start, behind]
  apply exists_congr
  intro c
  split_ifs with hroot
  · simp [under]
  · constructor
    · intro h
      rw [h, ← List.append_assoc, List.take_append_drop]
      rfl
    · intro h
      have hcomponents := congrArg components h
      rw [under, ← List.take_append_drop (p.components.length - (route s).1) p.components,
        List.append_assoc] at hcomponents
      simpa using hcomponents

/-- A name leads into every directory. -/
theorem IsName.leadsInto {s : String} (h : IsName s) (p : Path) : p.LeadsInto s :=
  leadsInto_iff.2 ⟨s, join_name h p⟩

end Rust.Path
