import SecureABE.Authorities.Registry
import Mathlib.Data.List.TakeWhile

/-!
# Permission

Which attributes an authority may issue.

The attribute that a claim grants and the key prefix that permission is asked for are built separately
for each shape of claim. Every attribute of a claim is its prefix and an end that belongs to the shape
(`Ending`, `exists_ending`): nothing, a value after `=`, or a number after `>=`. A prefix is therefore
not determined by the attribute: a flag `clearance>=4` is asked for under `clearance>`, the numeric claim
with the same attribute under `clearance`. `checkPermission_spelling` says for which pairs of claims the
answers agree, and which prefixes give two authorities an attribute in common.
-/

namespace SecureABE.Authorities

open Rust

/-! ## Checking -/

theorem checkPermission_eq_ok {reg : AuthorityRegistry} {authority : String} {claim : Claim} :
    reg.checkPermission authority claim = .ok () ↔ ∃ a, reg.authorities.lookup authority = some a ∧
      (a.controls = [] ∨ claim.keyPrefix ∈ a.controls) := by
  rw [AuthorityRegistry.checkPermission]
  cases reg.authorities.lookup authority with
  | none => simp [Outcome.err]
  | some a =>
    simp only [Outcome.okOr_some, ok_bind]
    by_cases hempty : a.controls = []
    · simp [hempty]
    · have hany : a.controls.any (· == claim.keyPrefix) = true ↔ claim.keyPrefix ∈ a.controls := by
        simp [List.any_eq_true]
      rw [if_neg (by simpa using hempty)]
      by_cases hmem : claim.keyPrefix ∈ a.controls
      · rw [if_pos (hany.2 hmem)]
        simp [hmem]
      · rw [if_neg (fun h => hmem (hany.1 h))]
        simp [hmem, hempty, Outcome.err]

/-! ## The ends of attributes -/

/-- What stands after the key prefix of a claim in its attributes. -/
inductive Ending : Claim → List Char → Prop
  | bare {s : String} (h : '=' ∉ s.toList) : Ending (.flag s) []
  | cut {s : String} (h : '=' ∉ (Claim.flag s).keyPrefix.toList) (cs : List Char) :
      Ending (.flag s) ('=' :: cs)
  | value (key value : String) : Ending (.text key value) ('=' :: value.toList)
  | level (key : String) (value max : Int) (i : ℕ) :
      Ending (.numeric key value max) ('>' :: '=' :: (toString i).toList)

/-- The part of a text before a separator. -/
theorem headD_split (sep : Char) (l : List Char) (d : List Char) :
    (split sep l).headD d = l.takeWhile (· ≠ sep) := by
  induction l with
  | nil => rfl
  | cons c l ih =>
    unfold split
    by_cases hc : c = sep
    · simp [hc]
    · rw [if_neg hc, List.takeWhile_cons_of_pos (by simpa using hc), ← ih]
      cases hs : split sep l with
      | nil =>
        -- splitting never returns an empty list
        cases l with
        | nil => cases hs
        | cons b l =>
          unfold split at hs
          split_ifs at hs
          split at hs <;> cases hs
      | cons w ws => rfl

theorem toList_keyPrefix_flag (s : String) :
    (Claim.flag s).keyPrefix.toList = s.toList.takeWhile (· ≠ '=') := by
  rw [Claim.keyPrefix, String.toList_ofList, headD_split]

theorem equals_notMem_keyPrefix_flag (s : String) : '=' ∉ (Claim.flag s).keyPrefix.toList := by
  rw [toList_keyPrefix_flag]
  intro h
  simpa using List.mem_takeWhile_imp h

/-- An attribute of a claim is its key prefix with an end of its shape. -/
theorem exists_ending {c : Claim} {a : String} (h : a ∈ c.resolve) :
    ∃ e, Ending c e ∧ a.toList = c.keyPrefix.toList ++ e := by
  cases c with
  | flag s =>
    obtain rfl := List.mem_singleton.1 h
    have hsplit := List.takeWhile_append_dropWhile (p := fun c : Char => decide (c ≠ '=')) (l := a.toList)
    cases hrest : a.toList.dropWhile (· ≠ '=') with
    | nil =>
      rw [hrest, List.append_nil] at hsplit
      have hhead : (Claim.flag a).keyPrefix.toList = a.toList :=
        (toList_keyPrefix_flag a).trans hsplit
      refine ⟨[], .bare ?_, by rw [hhead, List.append_nil]⟩
      rw [← hhead]
      exact equals_notMem_keyPrefix_flag a
    | cons c cs =>
      have hc : c = '=' := by
        have hhead := List.head?_dropWhile_not (fun c : Char => decide (c ≠ '=')) a.toList
        rw [hrest] at hhead
        simpa using hhead
      subst hc
      refine ⟨'=' :: cs, .cut (equals_notMem_keyPrefix_flag a) cs, ?_⟩
      rw [toList_keyPrefix_flag, ← hrest]
      exact hsplit.symm
  | text key value =>
    obtain rfl := List.mem_singleton.1 h
    exact ⟨_, .value key value, by simp [Claim.keyPrefix]⟩
  | numeric key value max =>
    obtain ⟨i, -, rfl⟩ := List.mem_map.1 h
    exact ⟨_, .level key value max i, by simp [Claim.keyPrefix, Claim.atLeast]⟩

/-- Only the attributes of numeric claims go on with `>` after the prefix. -/
theorem Ending.head_ne {c : Claim} {e : List Char} (h : Ending c e)
    (hc : ∀ key value max, c ≠ .numeric key value max) : e.head? ≠ some '>' := by
  cases h with
  | bare _ => simp
  | cut _ _ => simp
  | value _ _ => simp
  | level key value max _ => exact absurd rfl (hc key value max)

/-! ## Spelling -/

/-- The two claims name the same key, whichever attributes they share: both are numeric, or neither is
and the key of a text has no `=` where the other claim is a flag, and is the same where it is a text. -/
def SpelledAlike : Claim → Claim → Prop
  | .numeric .., .numeric .. => True
  | .numeric .., _ => False
  | _, .numeric .. => False
  | .flag _, .flag _ => True
  | .flag _, .text key _ => '=' ∉ key.toList
  | .text key _, .flag _ => '=' ∉ key.toList
  | .text key _, .text key' _ => key = key'

/-- Two prefixes one of which is the other with `>`, or with `=` and some text. -/
def Confusable (p q : String) : Prop :=
  q.toList = p.toList ++ ['>'] ∨ p.toList ++ ['='] <+: q.toList

/-- The ends of two claims with a common attribute, where the prefix of the second claim is the longer
one. -/
theorem confusable_of_append {c c' : Claim} {e e' m : List Char} (he : Ending c e) (he' : Ending c' e')
    (hm : m ≠ []) (hhead : c'.keyPrefix.toList = c.keyPrefix.toList ++ m) (h : e = m ++ e') :
    Confusable c.keyPrefix c'.keyPrefix := by
  obtain ⟨b, m, rfl⟩ := List.exists_cons_of_ne_nil hm
  have hequals : ∀ cs, e = '=' :: cs → Confusable c.keyPrefix c'.keyPrefix := by
    rintro cs rfl
    obtain ⟨rfl, -⟩ := List.cons.inj h
    right
    rw [hhead]
    exact ⟨m, by simp⟩
  cases he with
  | bare _ => cases h
  | cut _ cs => exact hequals cs rfl
  | value key value => exact hequals _ rfl
  | level key value max i =>
    obtain ⟨rfl, hrest⟩ := List.cons.inj h
    cases m with
    | nil => exact Or.inl hhead
    | cons d m =>
      -- the rest of the longer prefix has the `=`, and the other end is made of digits
      obtain ⟨rfl, hdigits⟩ := List.cons.inj hrest
      have hdigit : ∀ x ∈ e', x.isDigit = true := fun x hx =>
        isDigit_of_mem_toString (n := i) (by rw [hdigits]; simp [hx])
      have hin : '=' ∈ c'.keyPrefix.toList := by rw [hhead]; simp
      cases he' with
      | @bare s hs =>
        rw [toList_keyPrefix_flag] at hin
        exact absurd (List.takeWhile_subset _ hin) hs
      | cut hs _ => exact absurd hin hs
      | value _ _ => exact absurd (hdigit '=' (by simp)) (by decide)
      | level _ _ _ _ => exact absurd (hdigit '>' (by simp)) (by decide)

/-- Claims with a common attribute and different prefixes have confusable ones. -/
theorem confusable_of_mem_resolve {c c' : Claim} {a : String} (h : a ∈ c.resolve) (h' : a ∈ c'.resolve)
    (hne : c.keyPrefix ≠ c'.keyPrefix) :
    Confusable c.keyPrefix c'.keyPrefix ∨ Confusable c'.keyPrefix c.keyPrefix := by
  obtain ⟨e, he, ha⟩ := exists_ending h
  obtain ⟨e', he', ha'⟩ := exists_ending h'
  have hne' : c.keyPrefix.toList ≠ c'.keyPrefix.toList := fun heq => hne (String.toList_inj.1 heq)
  rcases List.append_eq_append_iff.1 (ha.symm.trans ha') with ⟨m, hm, hrest⟩ | ⟨m, hm, hrest⟩
  · refine Or.inl (confusable_of_append he he' ?_ hm hrest)
    rintro rfl
    exact hne' (by rw [hm, List.append_nil])
  · refine Or.inr (confusable_of_append he' he ?_ hm hrest)
    rintro rfl
    exact hne' (by rw [hm, List.append_nil])

/-- Confusable prefixes belong to claims with a common attribute. -/
theorem exists_claims_of_confusable {p q : String} (h : Confusable p q) :
    ∃ c c' : Claim, c.keyPrefix = p ∧ c'.keyPrefix = q ∧ ∃ a, a ∈ c.resolve ∧ a ∈ c'.resolve := by
  rcases h with h | ⟨w, h⟩
  · -- a level, also spelled as a text
    refine ⟨.numeric p 1 1, .text q "1", rfl, rfl, q ++ "=" ++ "1", ?_, List.mem_singleton_self _⟩
    refine List.mem_map.2 ⟨1, by decide, ?_⟩
    have hone : Nat.toDigits 10 1 = ['1'] := rfl
    rw [← String.toList_inj]
    simp [Claim.atLeast, h, hone]
  · refine ⟨.text p (String.ofList w ++ "="), .text q "", rfl, rfl, q ++ "=" ++ "", ?_,
      List.mem_singleton_self _⟩
    apply List.mem_singleton.2
    rw [← String.toList_inj]
    simp [← h]

/-- A numeric claim and one of another shape with a common attribute have different prefixes. -/
theorem keyPrefix_ne_of_numeric {key : String} {value max : Int} {c : Claim} {a : String}
    (hc : ∀ key value max, c ≠ .numeric key value max) (h : a ∈ (Claim.numeric key value max).resolve)
    (h' : a ∈ c.resolve) : key ≠ c.keyPrefix := by
  obtain ⟨e, he, ha⟩ := exists_ending h
  obtain ⟨e', he', ha'⟩ := exists_ending h'
  intro heq
  have hkey : (Claim.numeric key value max).keyPrefix = key := rfl
  rw [ha, hkey, heq] at ha'
  obtain rfl := List.append_cancel_left ha'
  cases he with
  | level _ _ _ i => exact he'.head_ne hc rfl

/-- A flag and a text with a common attribute have the same prefix if the key has no `=`. -/
theorem keyPrefix_flag_eq_iff {s key value : String} {a : String} (h : a ∈ (Claim.flag s).resolve)
    (h' : a ∈ (Claim.text key value).resolve) :
    (Claim.flag s).keyPrefix = key ↔ '=' ∉ key.toList := by
  obtain rfl := List.mem_singleton.1 h
  obtain rfl := List.mem_singleton.1 h'
  constructor
  · intro heq
    rw [← heq]
    exact equals_notMem_keyPrefix_flag _
  · intro hkey
    have hall : ∀ c ∈ key.toList, decide (c ≠ '=') = true := fun c hc =>
      decide_eq_true fun heq => hkey (heq ▸ hc)
    rw [← String.toList_inj, toList_keyPrefix_flag]
    simp only [String.toList_append, List.append_assoc]
    rw [List.takeWhile_append_of_pos hall]
    simp

/-- For claims with a common attribute, being spelled alike is having the same key prefix. -/
theorem spelledAlike_iff {c c' : Claim} {a : String} (h : a ∈ c.resolve) (h' : a ∈ c'.resolve) :
    SpelledAlike c c' ↔ c.keyPrefix = c'.keyPrefix := by
  cases c with
  | flag s =>
    cases c' with
    | flag s' =>
      obtain rfl := List.mem_singleton.1 h
      obtain rfl := List.mem_singleton.1 h'
      exact iff_of_true trivial rfl
    | text key value => exact (keyPrefix_flag_eq_iff h h').symm
    | numeric key value max =>
      exact iff_of_false id fun heq => keyPrefix_ne_of_numeric (by simp) h' h heq.symm
  | text key value =>
    cases c' with
    | flag s => exact (keyPrefix_flag_eq_iff h' h).symm.trans eq_comm
    | text key' value' => exact Iff.rfl
    | numeric key' value' max =>
      exact iff_of_false id fun heq => keyPrefix_ne_of_numeric (by simp) h' h heq.symm
  | numeric key value max =>
    cases c' with
    | flag s => exact iff_of_false id (keyPrefix_ne_of_numeric (by simp) h h')
    | text key' value' => exact iff_of_false id (keyPrefix_ne_of_numeric (by simp) h h')
    | numeric key' value' max' =>
      -- the number after the last `=` is made of digits
      obtain ⟨i, -, rfl⟩ := List.mem_map.1 h
      obtain ⟨j, -, heq⟩ := List.mem_map.1 h'
      have htext : (key' ++ ">").toList ++ '=' :: (toString j).toList =
          (key ++ ">").toList ++ '=' :: (toString i).toList := by
        have := congrArg String.toList heq
        simpa [Claim.atLeast] using this
      obtain ⟨hkey, -, -⟩ := append_cons_inj (by decide) (by decide)
        (fun _ => isDigit_of_mem_toString) (fun _ => isDigit_of_mem_toString) htext
      refine iff_of_true trivial (String.toList_inj.1 ?_)
      simpa [Claim.keyPrefix, eq_comm] using hkey

/-! ## What permission depends on -/

/-- **Permission and spelling.** Two claims with a common attribute are permitted to the same registered
authorities if and only if they are spelled alike; two authorities with disjoint non-empty controls
have no attribute in common that both may issue if and only if they control no confusable prefixes. -/
theorem checkPermission_spelling (c c' : Claim) (a : String) (reg : AuthorityRegistry)
    (name name' : String) (x x' : Authority) :
    (a ∈ c.resolve → a ∈ c'.resolve →
      ((∀ (reg : AuthorityRegistry) (authority : String), authority ∈ reg.authorities →
          (reg.checkPermission authority c = .ok () ↔ reg.checkPermission authority c' = .ok ())) ↔
        SpelledAlike c c')) ∧
    (reg.authorities.lookup name = some x → reg.authorities.lookup name' = some x' →
      x.controls ≠ [] → x'.controls ≠ [] → (∀ p ∈ x.controls, p ∉ x'.controls) →
        ((¬ ∃ (c c' : Claim) (a : String), reg.checkPermission name c = .ok () ∧
            reg.checkPermission name' c' = .ok () ∧ a ∈ c.resolve ∧ a ∈ c'.resolve) ↔
          ∀ p ∈ x.controls, ∀ q ∈ x'.controls, ¬ Confusable p q ∧ ¬ Confusable q p)) := by
  constructor
  · intro h h'
    rw [spelledAlike_iff h h']
    constructor
    · intro hagree
      -- an authority that controls the prefix of the first claim only
      let reg := AuthorityRegistry.new.register "" [c.keyPrefix]
      have hlookup : reg.authorities.lookup "" = some ⟨"", [c.keyPrefix]⟩ := AList.lookup_insert _
      have hcheck : reg.checkPermission "" c = .ok () :=
        checkPermission_eq_ok.2 ⟨_, hlookup, Or.inr (List.mem_singleton_self _)⟩
      obtain ⟨y, hy, hcontrols⟩ := checkPermission_eq_ok.1
        ((hagree reg "" (HashMap.mem_of_lookup hlookup)).1 hcheck)
      obtain rfl := Option.some.inj (hlookup.symm.trans hy)
      rcases hcontrols with hnil | hmem
      · cases hnil
      · exact (List.mem_singleton.1 hmem).symm
    · intro heq reg authority _
      rw [checkPermission_eq_ok, checkPermission_eq_ok, heq]
  · intro hx hx' hne hne' hdisjoint
    constructor
    · intro hnone p hp q hq
      constructor
      · intro hconf
        obtain ⟨c, c', rfl, rfl, a, ha, ha'⟩ := exists_claims_of_confusable hconf
        exact hnone ⟨c, c', a, checkPermission_eq_ok.2 ⟨x, hx, Or.inr hp⟩,
          checkPermission_eq_ok.2 ⟨x', hx', Or.inr hq⟩, ha, ha'⟩
      · intro hconf
        obtain ⟨c', c, rfl, rfl, a, ha', ha⟩ := exists_claims_of_confusable hconf
        exact hnone ⟨c, c', a, checkPermission_eq_ok.2 ⟨x, hx, Or.inr hp⟩,
          checkPermission_eq_ok.2 ⟨x', hx', Or.inr hq⟩, ha, ha'⟩
    · rintro hconf ⟨c, c', a, hc, hc', ha, ha'⟩
      obtain ⟨y, hy, hcontrols⟩ := checkPermission_eq_ok.1 hc
      obtain rfl := Option.some.inj (hx.symm.trans hy)
      obtain ⟨y', hy', hcontrols'⟩ := checkPermission_eq_ok.1 hc'
      obtain rfl := Option.some.inj (hx'.symm.trans hy')
      have hp := hcontrols.resolve_left hne
      have hq := hcontrols'.resolve_left hne'
      have hhead : c.keyPrefix ≠ c'.keyPrefix := fun heq => hdisjoint _ hp (heq ▸ hq)
      rcases confusable_of_mem_resolve ha ha' hhead with h | h
      · exact (hconf _ hp _ hq).1 h
      · exact (hconf _ hp _ hq).2 h

/-- A role is granted by a flag or by a text to the same authorities, and two departments that control
the departments and the roles issue no common attribute. -/
theorem checkPermission_role :
    let reg := (AuthorityRegistry.new.register "hr" ["department"]).register "security" ["role"]
    (∀ (reg : AuthorityRegistry) (authority : String), authority ∈ reg.authorities →
      (reg.checkPermission authority (.flag "role=admin") = .ok () ↔
        reg.checkPermission authority (.text "role" "admin") = .ok ())) ∧
    ¬ ∃ (c c' : Claim) (a : String), reg.checkPermission "hr" c = .ok () ∧
      reg.checkPermission "security" c' = .ok () ∧ a ∈ c.resolve ∧ a ∈ c'.resolve := by
  intro reg
  have hspelling := checkPermission_spelling (.flag "role=admin") (.text "role" "admin") "role=admin" reg
    "hr" "security" ⟨"hr", ["department"]⟩ ⟨"security", ["role"]⟩
  refine ⟨(hspelling.1 (by decide) (by decide)).2 (by decide : '=' ∉ "role".toList),
    (hspelling.2 (by decide) (by decide) (by simp) (by simp) (by simp)).2 ?_⟩
  have hapart : ¬ Confusable "department" "role" ∧ ¬ Confusable "role" "department" := by
    unfold Confusable
    decide
  exact List.forall_mem_singleton.2 (List.forall_mem_singleton.2 hapart)

/-- An authority that controls `clearance` may issue `clearance>=4` as a numeric claim and not as a
flag. -/
theorem checkPermission_clearance :
    let reg := AuthorityRegistry.new.register "security" ["clearance"]
    "clearance>=4" ∈ (Claim.numeric "clearance" 4 10).resolve ∧
      "clearance>=4" ∈ (Claim.flag "clearance>=4").resolve ∧
      reg.checkPermission "security" (.numeric "clearance" 4 10) = .ok () ∧
      reg.checkPermission "security" (.flag "clearance>=4") =
        Outcome.err (.notPermitted "security" "clearance>") := by
  decide

end SecureABE.Authorities
