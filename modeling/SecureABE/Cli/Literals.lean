import SecureABE.Cli.Issuing
import SecureABE.Policy.Canonical

/-!
# Policy literals and claims

Of an attribute in a policy the parser drops double quotes, whitespace and parentheses. A claim on the
command line keeps them: `parse_claims` and `resolve` hand on the text as it was typed. The two agree
exactly on texts that have none of these characters (`agree_iff`).
-/

namespace SecureABE.Cli

open Rust SecureABE.Policy SecureABE.Revocation SecureABE.Authorities

/-- A text without double quotes and spaces. -/
def stripped (s : List Char) : List Char := (s.filter (· ≠ '"')).filter (· ≠ ' ')

/-- The attributes of the claims given on the command line satisfy the policy, with the tags of one
revocation list on both sides. -/
def Meets (rl : RevocationList) (policy : AccessTree) (flags texts : List String) : Prop :=
  ∃ claims, parseClaims flags texts [] = .ok claims ∧
    (retagTree policy rl).isSatisfiedBy ((resolved claims).map rl.tag) = true

theorem meets_leaf_iff {rl : RevocationList} {l t : String} {flags texts : List String} {claim : Claim}
    (hclaims : parseClaims flags texts [] = .ok [claim]) (hresolve : claim.resolve = [t]) :
    Meets rl (.leaf l) flags texts ↔ t = l := by
  have hresolved : resolved [claim] = [t] := by rw [resolved, List.flatMap_singleton, hresolve]
  rw [Meets, hclaims]
  simp [hresolved, tag_eq_tag, eq_comm]

/-- `--flag` grants the attribute that is its text. -/
theorem meets_flag_iff {rl : RevocationList} {l t : String} :
    Meets rl (.leaf l) [t] [] ↔ t = l :=
  meets_leaf_iff rfl rfl

/-- `--text` puts its text together again. -/
theorem meets_text_iff {rl : RevocationList} {l t : String} (h : '=' ∈ t.toList) :
    Meets rl (.leaf l) [] [t] ↔ t = l := by
  obtain ⟨k, v, hsplit, hjoin⟩ := exists_splitOnce h
  suffices hclaims : parseClaims [] [t] [] = .ok [.text (String.ofList k) (String.ofList v)] ∧
      (Claim.text (String.ofList k) (String.ofList v)).resolve = [t] from
    meets_leaf_iff hclaims.1 hclaims.2
  constructor
  · have htext : parseText t = .ok (.text (String.ofList k) (String.ofList v)) := by
      rw [parseText, hsplit]
      rfl
    have hlist : Outcome.mapList parseText [t] =
        .ok [.text (String.ofList k) (String.ofList v)] := by
      rw [Outcome.mapList, htext]
      rfl
    rw [parseClaims, hlist]
    rfl
  · have ht : String.ofList k ++ "=" ++ String.ofList v = t := by
      rw [← String.toList_inj, ← hjoin]
      simp
    rw [Claim.resolve, ht]

/-- A text that is the policy literal up to quotes and spaces is its leaf exactly if it has no quotes,
no whitespace and no parentheses. -/
theorem eq_leaf_iff {w t l : String} (hw : parse w = .ok (.leaf l))
    (ht : stripped t.toList = stripped w.toList) :
    t = l ↔ ∀ c ∈ t.toList, c ≠ '"' ∧ isWordChar c = true := by
  have hl := toList_leaf_of_parse hw
  constructor
  · rintro rfl c hc
    rw [hl, unquoted, List.mem_filter, List.mem_filter] at hc
    exact ⟨of_decide_eq_true hc.2, hc.1.2⟩
  · intro hplain
    have hspace : ∀ s : List Char, (s.filter (· ≠ ' ')).filter isWordChar = s.filter isWordChar := by
      intro s
      rw [List.filter_filter]
      apply List.filter_congr
      intro c _
      by_cases hc : c = ' '
      · rw [hc]
        decide
      · simp [hc]
    have hwords : ∀ s : List Char, (stripped s).filter isWordChar = unquoted (s.filter isWordChar) := by
      intro s
      rw [stripped, hspace, unquoted, List.filter_filter, List.filter_filter]
      exact List.filter_congr fun c _ => Bool.and_comm _ _
    have hself : unquoted (t.toList.filter isWordChar) = t.toList := by
      rw [List.filter_eq_self.2 fun c hc => (hplain c hc).2]
      exact unquoted_of_notMem fun hc => (hplain _ hc).1 rfl
    rw [← String.toList_inj, hl, ← hwords, ← ht, hwords, hself]

/-- **When a policy literal and a claim agree.** A claim whose text is the literal up to double quotes
and spaces satisfies the leaf of the literal exactly if the text has no double quotes, no whitespace and
no parentheses. -/
theorem agree_iff {w t l : String} (hw : parse w = .ok (.leaf l))
    (ht : stripped t.toList = stripped w.toList) (rl : RevocationList) :
    (Meets rl (.leaf l) [t] [] ∧ ('=' ∈ t.toList → Meets rl (.leaf l) [] [t])) ↔
      ∀ c ∈ t.toList, c ≠ '"' ∧ isWordChar c = true := by
  rw [meets_flag_iff, ← eq_leaf_iff hw ht]
  constructor
  · exact fun h => h.1
  · exact fun h => ⟨h, fun hequals => (meets_text_iff hequals).2 h⟩

theorem agree_iff_quotedName :
    (Meets ⟨⟨[]⟩, default⟩ (.leaf "a") ["a"] [] ∧
        ('=' ∈ "a".toList → Meets ⟨⟨[]⟩, default⟩ (.leaf "a") [] ["a"])) ↔
      ∀ c ∈ "a".toList, c ≠ '"' ∧ isWordChar c = true :=
  agree_iff (t := "a") parse_quotedName rfl _

/-- A claim with the very text of a quoted literal does not satisfy the literal. -/
theorem not_agree_quotes : ¬ ∀ (w t l : String) (rl : RevocationList), parse w = .ok (.leaf l) →
    stripped t.toList = stripped w.toList →
      Meets rl (.leaf l) [t] [] ∧ ('=' ∈ t.toList → Meets rl (.leaf l) [] [t]) := by
  intro h
  have hflag := (h "\"a\"" "\"a\"" "a" ⟨⟨[]⟩, default⟩ parse_quotedName rfl).1
  exact absurd (meets_flag_iff.1 hflag) (by decide)

end SecureABE.Cli
