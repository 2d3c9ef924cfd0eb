import Mathlib.Data.List.Basic
import Mathlib.Data.UInt

/-!
# Generations

Some events of a history advance a counter that is a machine word. What is given in a history and what a
mark in it finds have the same generation if no event between the two advances the counter, and only then,
as long as the history advances it less often than the word has values (`exists_generation_eq_iff`).
-/

namespace Rust

variable {κ : Type}

/-- The generation after a history. -/
def generation (advances : κ → Bool) (history : List κ) : UInt64 :=
  UInt64.ofNat (history.countP advances)

/-- Something is given in a history, and the counter is advanced neither from there to the mark nor, if it
is given after the mark, from the mark to there. -/
def Uninterrupted (gives : List κ → κ → Prop) (advances : κ → Bool) (before : List κ) (mark : κ)
    (later : List κ) : Prop :=
  (∃ past event since, before = past ++ event :: since ∧ gives past event ∧
    ∀ e ∈ since, advances e = false) ∨
  ∃ past event rest, later = past ++ event :: rest ∧ gives (before ++ mark :: past) event ∧
    ∀ e ∈ past, advances e = false

variable {advances : κ → Bool}

theorem generation_append (before later : List κ) : generation advances (before ++ later) =
    generation advances before + generation advances later := by
  rw [generation, generation, generation, List.countP_append, UInt64.ofNat_add]

theorem generation_concat (history : List κ) (event : κ) : generation advances (history ++ [event]) =
    generation advances history + if advances event then 1 else 0 := by
  rw [generation_append]
  cases h : advances event <;> simp [generation, h]

/-- The events of a longer history. -/
theorem exists_event_concat_iff {P : List κ → κ → Prop} {history : List κ} {last : κ} :
    (∃ past event rest, history ++ [last] = past ++ event :: rest ∧ P past event) ↔
      (∃ past event rest, history = past ++ event :: rest ∧ P past event) ∨ P history last := by
  constructor
  · rintro ⟨past, event, rest, heq, h⟩
    obtain rfl | ⟨rest, e, rfl⟩ := List.eq_nil_or_concat rest
    · obtain ⟨rfl, hlast⟩ := List.append_inj' heq rfl
      obtain rfl := List.singleton_inj.1 hlast
      exact Or.inr h
    · rw [List.concat_eq_append, ← List.cons_append, ← List.append_assoc] at heq
      exact Or.inl ⟨past, event, rest, (List.append_inj' heq rfl).1, h⟩
  · rintro (⟨past, event, rest, rfl, h⟩ | h)
    · exact ⟨past, event, rest ++ [last], by simp, h⟩
    · exact ⟨history, last, [], rfl, h⟩

/-- The generation stays the same while nothing advances the counter. -/
theorem generation_eq_zero_iff {history : List κ} (hcount : history.countP advances < 2 ^ 64) :
    generation advances history = 0 ↔ ∀ e ∈ history, advances e = false := by
  have hnat : (generation advances history).toNat = history.countP advances :=
    UInt64.toNat_ofNat_of_lt' (by rw [UInt64.size]; omega)
  rw [← UInt64.toNat_inj, hnat, UInt64.toNat_zero, List.countP_eq_zero]
  simp

theorem generation_append_eq_iff {before later : List κ} (hcount : later.countP advances < 2 ^ 64) :
    generation advances (before ++ later) = generation advances before ↔
      ∀ e ∈ later, advances e = false := by
  rw [generation_append, ← generation_eq_zero_iff hcount]
  constructor
  · intro h
    simpa using h
  · intro h
    rw [h, UInt64.add_zero]

/-- The parts of a history with a mark in it, around another event. -/
theorem append_cons_eq_append_cons_iff {before later past rest : List κ} {mark event : κ}
    (hne : event ≠ mark) : before ++ mark :: later = past ++ event :: rest ↔
      (∃ since, before = past ++ event :: since ∧ rest = since ++ mark :: later) ∨
      ∃ between, past = before ++ mark :: between ∧ later = between ++ event :: rest := by
  rw [List.append_eq_append_iff]
  constructor
  · rintro (⟨as, rfl, hlater⟩ | ⟨bs, rfl, hrest⟩)
    · cases as with
      | nil => exact absurd (List.cons.inj hlater).1.symm hne
      | cons e as =>
        obtain ⟨rfl, rfl⟩ := List.cons.inj hlater
        exact Or.inr ⟨as, rfl, rfl⟩
    · cases bs with
      | nil => exact absurd (List.cons.inj hrest).1 hne
      | cons e bs =>
        obtain ⟨rfl, rfl⟩ := List.cons.inj hrest
        exact Or.inl ⟨bs, rfl, rfl⟩
  · rintro (⟨since, rfl, rfl⟩ | ⟨between, rfl, rfl⟩)
    · exact Or.inr ⟨event :: since, rfl, rfl⟩
    · exact Or.inl ⟨mark :: between, rfl, rfl⟩

/-- **The same generation** is no advance in between. -/
theorem exists_generation_eq_iff {gives : List κ → κ → Prop} {before later : List κ} {mark : κ}
    (hgives : ∀ past event, gives past event → event ≠ mark ∧ advances event = false)
    (hmark : advances mark = false) (hcount : (before ++ later).countP advances < 2 ^ 64) :
    (∃ past event rest, before ++ mark :: later = past ++ event :: rest ∧ gives past event ∧
      generation advances past = generation advances before) ↔
      Uninterrupted gives advances before mark later := by
  rw [List.countP_append] at hcount
  constructor
  · rintro ⟨past, event, rest, heq, hgiven, hgeneration⟩
    obtain ⟨hne, hevent⟩ := hgives past event hgiven
    rcases (append_cons_eq_append_cons_iff hne).1 heq with ⟨since, rfl, -⟩ | ⟨between, rfl, hlater⟩
    · rw [List.countP_append] at hcount
      have hfew : (event :: since).countP advances < 2 ^ 64 := by omega
      have hnone := (generation_append_eq_iff hfew).1 hgeneration.symm
      exact Or.inl ⟨past, event, since, rfl, hgiven, fun e he => hnone e (List.mem_cons_of_mem _ he)⟩
    · rw [hlater, List.countP_append] at hcount
      have hfew : (mark :: between).countP advances < 2 ^ 64 := by
        rw [List.countP_cons_of_neg (by simp [hmark])]
        omega
      have hnone := (generation_append_eq_iff hfew).1 hgeneration
      exact Or.inr ⟨between, event, rest, hlater, hgiven, fun e he => hnone e (List.mem_cons_of_mem _ he)⟩
  · rintro (⟨past, event, since, rfl, hgiven, hnone⟩ | ⟨past, event, rest, rfl, hgiven, hnone⟩)
    · refine ⟨past, event, since ++ mark :: later, by simp, hgiven, ?_⟩
      rw [List.countP_append] at hcount
      refine ((generation_append_eq_iff (by omega)).2 ?_).symm
      exact List.forall_mem_cons.2 ⟨(hgives past event hgiven).2, hnone⟩
    · refine ⟨before ++ mark :: past, event, rest, by simp, hgiven, ?_⟩
      rw [List.countP_append] at hcount
      refine (generation_append_eq_iff ?_).2 (List.forall_mem_cons.2 ⟨hmark, hnone⟩)
      rw [List.countP_cons_of_neg (by simp [hmark])]
      omega

end Rust
