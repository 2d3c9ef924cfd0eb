import SecureABE.Policy.Grammar

/-!
# The parser accepts its grammar

* `tokenize_eq_ok`: the tokenizer returns the one splitting of a text.
* `parseOr_sound`: what the parser returns is the tree of a derivation of the tokens it consumed.
* `parseOr_complete`: it finds the tree of every derivation that no operator follows.
* `parseOr_returns`: the depth `4 * n + 3` suffices for `n` tokens, so that `parse` is total.
* `parse_eq_ok` and `isSatisfiedBy_tree` put these together.
-/

namespace SecureABE.Policy

open Rust

/-! ## The tokenizer -/

/-- The token of an unfinished word, if there is one. -/
def wordTokens (current : List Char) : List Token :=
  if current.isEmpty then [] else [wordToken current]

theorem wordTokens_of_ne {w : List Char} (h : w ≠ []) : wordTokens w = [wordToken w] :=
  if_neg (by simpa using h)

/-- The tokens of a text, after the characters `current` of an unfinished word. -/
def tokensOf : List Char → List Char → List Token
  | current, [] => wordTokens current
  | current, ch :: text =>
    if ch = '(' then wordTokens current ++ .lParen :: tokensOf [] text
    else if ch = ')' then wordTokens current ++ .rParen :: tokensOf [] text
    else if isWhitespace ch then wordTokens current ++ tokensOf [] text
    else tokensOf (current ++ [ch]) text

theorem flush_eq (current : List Char) (tokens : List Token) :
    flush current tokens = .ok ([], tokens ++ wordTokens current) := by
  unfold flush wordTokens
  by_cases h : current.isEmpty
  · rw [if_pos h, if_pos h, List.isEmpty_iff.1 h, List.append_nil]
  · rw [if_neg h, if_neg h]

/-- One character takes the tokens read so far, and those still to come, one step further. -/
theorem tokenizeChar_eq (current : List Char) (tokens : List Token) (ch : Char) (text : List Char) :
    ∃ current' tokens', tokenizeChar (current, tokens) ch = .ok (current', tokens') ∧
      tokens' ++ tokensOf current' text = tokens ++ tokensOf current (ch :: text) := by
  simp only [tokenizeChar, flush_eq]
  rw [tokensOf]
  by_cases h1 : ch = '('
  · rw [if_pos h1, if_pos h1]
    exact ⟨_, _, rfl, by simp⟩
  · rw [if_neg h1, if_neg h1]
    by_cases h2 : ch = ')'
    · rw [if_pos h2, if_pos h2]
      exact ⟨_, _, rfl, by simp⟩
    · rw [if_neg h2, if_neg h2]
      by_cases h3 : isWhitespace ch
      · rw [if_pos h3, if_pos h3]
        exact ⟨_, _, rfl, by simp⟩
      · rw [if_neg h3, if_neg h3]
        exact ⟨_, _, rfl, rfl⟩

theorem tokenize_eq (input : String) : tokenize input = .ok (tokensOf [] input.toList) := by
  have loop : ∀ (text current : List Char) (tokens : List Token),
      ∃ current' tokens', text.foldlM tokenizeChar (current, tokens) = .ok (current', tokens') ∧
        tokens' ++ wordTokens current' = tokens ++ tokensOf current text := by
    intro text
    induction text with
    | nil => intro current tokens; exact ⟨current, tokens, rfl, rfl⟩
    | cons ch text ih =>
      intro current tokens
      obtain ⟨current₁, tokens₁, hstep, heq₁⟩ := tokenizeChar_eq current tokens ch text
      obtain ⟨current₂, tokens₂, hrun, heq₂⟩ := ih current₁ tokens₁
      refine ⟨current₂, tokens₂, ?_, heq₂.trans heq₁⟩
      rw [List.foldlM_cons, hstep]
      exact hrun
  obtain ⟨current, tokens, hrun, heq⟩ := loop input.toList [] []
  rw [tokenize, hrun]
  simp only [bind, Except.bind, flush_eq]
  rw [heq, List.nil_append]

theorem isWordChar_iff {c : Char} :
    isWordChar c = true ↔ c ≠ '(' ∧ c ≠ ')' ∧ isWhitespace c = false := by
  simp [isWordChar]
  tauto

theorem tokensOf_append {w : List Char} (hw : ∀ c ∈ w, isWordChar c) (current text : List Char) :
    tokensOf current (w ++ text) = tokensOf (current ++ w) text := by
  induction w generalizing current with
  | nil => simp
  | cons c w ih =>
    obtain ⟨h1, h2, h3⟩ := isWordChar_iff.1 (hw c (by simp))
    rw [List.cons_append, tokensOf, if_neg h1, if_neg h2, if_neg (by simp [h3]),
      ih fun d hd => hw d (by simp [hd])]
    simp

/-- A word ends where no word character follows. -/
theorem tokensOf_word {w text : List Char} (htext : ∀ c ∈ text.head?, isWordChar c = false) :
    tokensOf w text = wordTokens w ++ tokensOf [] text := by
  cases text with
  | nil => simp [tokensOf, wordTokens]
  | cons c text =>
    have hc := htext c (by simp)
    have hnil : wordTokens [] = [] := rfl
    unfold tokensOf
    rw [hnil]
    by_cases h1 : c = '('
    · simp [h1]
    · by_cases h2 : c = ')'
      · simp [h2]
      · by_cases h3 : isWhitespace c
        · simp [h1, h2, h3]
        · rw [isWordChar_iff.2 ⟨h1, h2, by simpa using h3⟩] at hc
          cases hc

theorem lexes_tokensOf (text current : List Char) (hcur : ∀ c ∈ current, isWordChar c) :
    Lexes (current ++ text) (tokensOf current text) := by
  -- the word read so far, followed by a character that is not part of it
  have word : ∀ {text : List Char} {tokens : List Token} (current : List Char),
      (∀ c ∈ current, isWordChar c) → (∀ c ∈ text.head?, isWordChar c = false) →
        Lexes text tokens → Lexes (current ++ text) (wordTokens current ++ tokens) := by
    intro text tokens current hcur htext h
    by_cases hne : current = []
    · subst hne
      exact h
    · rw [wordTokens_of_ne hne]
      exact Lexes.word hne hcur htext h
  induction text generalizing current with
  | nil =>
    rw [tokensOf, ← List.append_nil (wordTokens current)]
    exact word current hcur (by simp) Lexes.nil
  | cons ch text ih =>
    unfold tokensOf
    by_cases h1 : ch = '('
    · rw [if_pos h1, h1]
      exact word current hcur (by simp [isWordChar]) (Lexes.lParen (ih [] (by simp)))
    · by_cases h2 : ch = ')'
      · rw [if_neg h1, if_pos h2, h2]
        exact word current hcur (by simp [isWordChar]) (Lexes.rParen (ih [] (by simp)))
      · by_cases h3 : isWhitespace ch
        · rw [if_neg h1, if_neg h2, if_pos h3]
          exact word current hcur (by simp [isWordChar, h3]) (Lexes.space h3 (ih [] (by simp)))
        · rw [if_neg h1, if_neg h2, if_neg h3]
          have hword : ∀ c ∈ current ++ [ch], isWordChar c := by
            intro c hc
            rcases List.mem_append.1 hc with hc | hc
            · exact hcur c hc
            · rw [List.mem_singleton.1 hc]
              exact isWordChar_iff.2 ⟨h1, h2, by simpa using h3⟩
          simpa using ih (current ++ [ch]) hword

theorem eq_tokensOf_of_lexes {text : List Char} {tokens : List Token} (h : Lexes text tokens) :
    tokens = tokensOf [] text := by
  induction h with
  | nil => rfl
  | @space c text tokens hc _ ih =>
    have h1 : c ≠ '(' := by rintro rfl; exact absurd hc (by decide)
    have h2 : c ≠ ')' := by rintro rfl; exact absurd hc (by decide)
    rw [tokensOf, if_neg h1, if_neg h2, if_pos hc, ih]
    rfl
  | lParen _ ih => rw [tokensOf, if_pos rfl, ih]; rfl
  | rParen _ ih => rw [tokensOf, if_neg (by decide), if_pos rfl, ih]; rfl
  | word hne hw htext _ ih =>
    rw [tokensOf_append hw, List.nil_append, tokensOf_word htext, wordTokens_of_ne hne, ih]
    rfl

/-- **The tokenizer** returns the only splitting of the text. -/
theorem tokenize_eq_ok {input : String} {tokens : List Token} :
    tokenize input = .ok tokens ↔ Lexes input.toList tokens := by
  rw [tokenize_eq]
  constructor
  · intro h
    rw [← Except.ok.inj h]
    simpa using lexes_tokensOf input.toList [] (by simp)
  · intro h
    rw [eq_tokensOf_of_lexes h]

/-- The words of a text are not empty. -/
theorem attr_ne_empty {text : List Char} {tokens : List Token} (h : Lexes text tokens) {word : String}
    (hword : .attr word ∈ tokens) : word ≠ "" := by
  induction h with
  | nil => simp at hword
  | space _ _ ih => exact ih hword
  | lParen _ ih => exact ih (by simpa using hword)
  | rParen _ ih => exact ih (by simpa using hword)
  | @word w _ _ hne _ _ _ ih =>
    rcases List.mem_cons.1 hword with h | h
    · unfold wordToken at h
      split_ifs at h
      injection h with h
      rintro rfl
      exact hne (by simpa using congrArg String.toList h.symm)
    · exact ih h

/-! ## Computations with a bounded depth -/

section Bounded

variable {α β : Type}

theorem bounded_bind_eq_pure {x : Bounded α} {f : α → Bounded β} {b : β} :
    (x >>= f) = pure b ↔ ∃ a, x = pure a ∧ f a = pure b := by
  constructor
  · intro h
    rcases x with _ | (e | a)
    · cases h
    · cases h
    · exact ⟨a, rfl, h⟩
  · rintro ⟨a, rfl, h⟩
    rwa [pure_bind]

/-- The depth was not used up. -/
def Finishes (x : Bounded α) : Prop := x ≠ tooDeep

theorem finishes_pure (a : α) : Finishes (pure a : Bounded α) := nofun

theorem finishes_throw (e : PolicyError) : Finishes (throw e : Bounded α) := nofun

theorem finishes_bind {x : Bounded α} {f : α → Bounded β} (hx : Finishes x)
    (hf : ∀ a, x = pure a → Finishes (f a)) : Finishes (x >>= f) := by
  rcases x with _ | (e | a)
  · exact absurd rfl hx
  · exact finishes_throw e
  · exact hf a rfl

end Bounded

/-! ## The cursor -/

/-- The parser `p'` is `p` after the tokens `ts`. -/
def Consumed (p : Parser) (ts : List Token) (p' : Parser) : Prop :=
  p' = ⟨p.tokens, p.pos + ts.length⟩ ∧ ts <+: p.tokens.drop p.pos

/-- The number of tokens that are left. -/
def left (p : Parser) : ℕ := p.tokens.length - p.pos

theorem Consumed.refl (p : Parser) : Consumed p [] p := ⟨rfl, List.nil_prefix⟩

theorem consumed_append {p p'' : Parser} {ts us : List Token} :
    Consumed p (ts ++ us) p'' ↔ ∃ p', Consumed p ts p' ∧ Consumed p' us p'' := by
  constructor
  · rintro ⟨rfl, rest, hrest⟩
    refine ⟨_, ⟨rfl, us ++ rest, by rw [← hrest, List.append_assoc]⟩, ?_, rest, ?_⟩
    · simp [Nat.add_assoc]
    · rw [← List.drop_drop, ← hrest, List.append_assoc, List.drop_left]
  · rintro ⟨_, ⟨rfl, rest, hrest⟩, rfl, rest', hrest'⟩
    refine ⟨by simp [Nat.add_assoc], rest', ?_⟩
    rw [← List.drop_drop, ← hrest, List.drop_left] at hrest'
    rw [List.append_assoc, hrest', hrest]

theorem consumed_cons {p p'' : Parser} {t : Token} {ts : List Token} :
    Consumed p (t :: ts) p'' ↔ p.peek = some t ∧ Consumed p.next.2 ts p'' := by
  have hone : ∀ p', Consumed p [t] p' ↔ p.peek = some t ∧ p' = p.next.2 := by
    intro p'
    rw [Consumed, and_comm, List.prefix_iff_eq_take, Parser.peek, Parser.next]
    refine and_congr ?_ Iff.rfl
    rw [← Nat.add_zero p.pos, ← List.getElem?_drop, Nat.add_zero]
    cases p.tokens.drop p.pos with
    | nil => simp
    | cons u us => simp [eq_comm]
  rw [← List.singleton_append, consumed_append]
  simp [hone]

theorem left_of_consumed {p p' : Parser} {ts : List Token} (h : Consumed p ts p') :
    left p = ts.length + left p' := by
  obtain ⟨rfl, hpre⟩ := h
  have := hpre.length_le
  rw [List.length_drop] at this
  simp only [left]
  omega

theorem left_of_peek {p : Parser} {t : Token} (h : p.peek = some t) :
    left p = left ⟨p.tokens, p.pos + 1⟩ + 1 := by
  have := left_of_consumed (consumed_cons.2 ⟨h, Consumed.refl p.next.2⟩)
  simpa [Nat.add_comm, Parser.next] using this

/-! ## Soundness -/

/-- The end of `parse_or`: a single child stands for itself. -/
theorem orChain_eq (e : AndExpr) (es : List AndExpr) (p : Parser) :
    (match e.tree :: andTrees es with
      | [child] => pure (child, p)
      | children => pure (AccessTree.or children, p)) =
      (pure ((OrExpr.chain e es).tree, p) : Bounded _) := by
  cases es <;> rfl

theorem length_atomTrees (as : List Atom) : (atomTrees as).length = as.length := by
  induction as with
  | nil => rfl
  | cons a as ih => rw [atomTrees, List.length_cons, ih, List.length_cons]

/-- The end of `parse_and`. -/
theorem andChain_eq (a : Atom) (as : List Atom) (p : Parser) :
    (match a.tree :: atomTrees as with
      | [child] => pure (child, p)
      | children => pure (AccessTree.and children, p)) =
      (pure ((AndExpr.chain a as).tree, p) : Bounded _) := by
  cases as with
  | nil => rfl
  | cons b as =>
    simp only [atomTrees, AndExpr.tree, AccessTree.and, List.length_cons, length_atomTrees]

mutual

/-- What `parse_or` returns is the tree of a derivation of the tokens it consumed. -/
theorem parseOr_sound : ∀ (depth : ℕ) {p p' : Parser} {t : AccessTree},
    parseOr depth p = pure (t, p') → ∃ e : OrExpr, Consumed p e.tokens p' ∧ e.tree = t
  | 0, _, _, _, h => by cases h
  | depth + 1, p, p', t, h => by
    unfold parseOr at h
    obtain ⟨⟨child, p₁⟩, hchild, h⟩ := bounded_bind_eq_pure.1 h
    obtain ⟨⟨children, p₂⟩, hloop, h⟩ := bounded_bind_eq_pure.1 h
    obtain ⟨e, hcons, rfl⟩ := parseAnd_sound depth hchild
    obtain ⟨es, hcons', rfl⟩ := parseOrLoop_sound depth hloop
    rw [List.singleton_append] at h
    cases (orChain_eq e es p₂).symm.trans h
    exact ⟨.chain e es, consumed_append.2 ⟨p₁, hcons, hcons'⟩, rfl⟩

theorem parseOrLoop_sound : ∀ (depth : ℕ) {children children' : List AccessTree} {p p' : Parser},
    parseOrLoop depth children p = pure (children', p') →
      ∃ es : List AndExpr, Consumed p (orTokens es) p' ∧ children' = children ++ andTrees es
  | 0, _, _, _, _, h => by cases h
  | depth + 1, children, children', p, p', h => by
    unfold parseOrLoop at h
    by_cases hpeek : p.peek = some .or
    · rw [hpeek] at h
      obtain ⟨⟨child, p₁⟩, hchild, h⟩ := bounded_bind_eq_pure.1 h
      obtain ⟨e, hcons, rfl⟩ := parseAnd_sound depth hchild
      obtain ⟨es, hcons', rfl⟩ := parseOrLoop_sound depth h
      refine ⟨e :: es, consumed_cons.2 ⟨hpeek, consumed_append.2 ⟨p₁, hcons, hcons'⟩⟩, ?_⟩
      rw [andTrees, List.append_assoc, List.singleton_append]
    · split at h
      · exact absurd ‹_› hpeek
      · cases h
        exact ⟨[], Consumed.refl p, (List.append_nil _).symm⟩

theorem parseAnd_sound : ∀ (depth : ℕ) {p p' : Parser} {t : AccessTree},
    parseAnd depth p = pure (t, p') → ∃ e : AndExpr, Consumed p e.tokens p' ∧ e.tree = t
  | 0, _, _, _, h => by cases h
  | depth + 1, p, p', t, h => by
    unfold parseAnd at h
    obtain ⟨⟨child, p₁⟩, hchild, h⟩ := bounded_bind_eq_pure.1 h
    obtain ⟨⟨children, p₂⟩, hloop, h⟩ := bounded_bind_eq_pure.1 h
    obtain ⟨a, hcons, rfl⟩ := parseAtom_sound depth hchild
    obtain ⟨as, hcons', rfl⟩ := parseAndLoop_sound depth hloop
    rw [List.singleton_append] at h
    cases (andChain_eq a as p₂).symm.trans h
    exact ⟨.chain a as, consumed_append.2 ⟨p₁, hcons, hcons'⟩, rfl⟩

theorem parseAndLoop_sound : ∀ (depth : ℕ) {children children' : List AccessTree} {p p' : Parser},
    parseAndLoop depth children p = pure (children', p') →
      ∃ as : List Atom, Consumed p (andTokens as) p' ∧ children' = children ++ atomTrees as
  | 0, _, _, _, _, h => by cases h
  | depth + 1, children, children', p, p', h => by
    unfold parseAndLoop at h
    by_cases hpeek : p.peek = some .and
    · rw [hpeek] at h
      obtain ⟨⟨child, p₁⟩, hchild, h⟩ := bounded_bind_eq_pure.1 h
      obtain ⟨a, hcons, rfl⟩ := parseAtom_sound depth hchild
      obtain ⟨as, hcons', rfl⟩ := parseAndLoop_sound depth h
      refine ⟨a :: as, consumed_cons.2 ⟨hpeek, consumed_append.2 ⟨p₁, hcons, hcons'⟩⟩, ?_⟩
      rw [atomTrees, List.append_assoc, List.singleton_append]
    · split at h
      · exact absurd ‹_› hpeek
      · cases h
        exact ⟨[], Consumed.refl p, (List.append_nil _).symm⟩

theorem parseAtom_sound : ∀ (depth : ℕ) {p p' : Parser} {t : AccessTree},
    parseAtom depth p = pure (t, p') → ∃ a : Atom, Consumed p a.tokens p' ∧ a.tree = t
  | 0, _, _, _, h => by cases h
  | depth + 1, p, p', t, h => by
    rw [parseAtom, Parser.next] at h
    cases hpeek : p.tokens[p.pos]? with
    | none => rw [hpeek] at h; cases h
    | some tok =>
      rw [hpeek] at h
      cases tok with
      | lParen =>
        obtain ⟨⟨inner, p₁⟩, hinner, h⟩ := bounded_bind_eq_pure.1 h
        obtain ⟨e, hcons, rfl⟩ := parseOr_sound depth hinner
        simp only [Parser.next] at h
        by_cases hclose : p₁.tokens[p₁.pos]? = some .rParen
        · rw [hclose] at h
          cases h
          exact ⟨.paren e, consumed_cons.2 ⟨hpeek, consumed_append.2 ⟨p₁, hcons,
            consumed_cons.2 ⟨hclose, Consumed.refl _⟩⟩⟩, rfl⟩
        · split at h
          · rename_i heq
            exact absurd (Prod.mk.inj heq).1 hclose
          · cases h
      | attr word =>
        simp only at h
        split_ifs at h
        · cases h
        · cases h
          exact ⟨.attr word, consumed_cons.2 ⟨hpeek, Consumed.refl _⟩, rfl⟩
      | rParen => cases h
      | and => cases h
      | or => cases h

end

/-! ## The depth suffices -/

mutual

theorem parseOr_finishes : ∀ {depth : ℕ} {p : Parser}, 4 * left p + 3 ≤ depth →
    Finishes (parseOr depth p)
  | depth + 1, p, h => by
    unfold parseOr
    apply finishes_bind (parseAnd_finishes (by omega))
    rintro ⟨child, p₁⟩ hchild
    obtain ⟨e, hcons, -⟩ := parseAnd_sound depth hchild
    have := left_of_consumed hcons
    apply finishes_bind (parseOrLoop_finishes (by omega))
    rintro ⟨children, p₂⟩ _
    dsimp only
    split <;> exact finishes_pure _

theorem parseOrLoop_finishes : ∀ {depth : ℕ} {children : List AccessTree} {p : Parser},
    4 * left p + 1 ≤ depth → Finishes (parseOrLoop depth children p)
  | depth + 1, children, p, h => by
    unfold parseOrLoop
    split
    · rename_i hpeek
      have := left_of_peek hpeek
      apply finishes_bind (parseAnd_finishes (by omega))
      rintro ⟨child, p₁⟩ hchild
      obtain ⟨e, hcons, -⟩ := parseAnd_sound depth hchild
      have := left_of_consumed hcons
      exact parseOrLoop_finishes (by omega)
    · exact finishes_pure _

theorem parseAnd_finishes : ∀ {depth : ℕ} {p : Parser}, 4 * left p + 2 ≤ depth →
    Finishes (parseAnd depth p)
  | depth + 1, p, h => by
    unfold parseAnd
    apply finishes_bind (parseAtom_finishes (by omega))
    rintro ⟨child, p₁⟩ hchild
    obtain ⟨a, hcons, -⟩ := parseAtom_sound depth hchild
    have := left_of_consumed hcons
    apply finishes_bind (parseAndLoop_finishes (by omega))
    rintro ⟨children, p₂⟩ _
    dsimp only
    split <;> exact finishes_pure _

theorem parseAndLoop_finishes : ∀ {depth : ℕ} {children : List AccessTree} {p : Parser},
    4 * left p + 1 ≤ depth → Finishes (parseAndLoop depth children p)
  | depth + 1, children, p, h => by
    unfold parseAndLoop
    split
    · rename_i hpeek
      have := left_of_peek hpeek
      apply finishes_bind (parseAtom_finishes (by omega))
      rintro ⟨child, p₁⟩ hchild
      obtain ⟨a, hcons, -⟩ := parseAtom_sound depth hchild
      have := left_of_consumed hcons
      exact parseAndLoop_finishes (by omega)
    · exact finishes_pure _

theorem parseAtom_finishes : ∀ {depth : ℕ} {p : Parser}, 4 * left p + 1 ≤ depth →
    Finishes (parseAtom depth p)
  | depth + 1, p, h => by
    unfold parseAtom
    split
    · rename_i p₁ hnext
      obtain ⟨hpeek, rfl⟩ := Prod.mk.inj hnext
      have := left_of_peek hpeek
      refine finishes_bind (parseOr_finishes (by omega))
        fun ⟨inner, p₂⟩ _ => ?_
      dsimp only
      split
      · exact finishes_pure _
      · exact finishes_throw _
    · split_ifs
      · exact finishes_throw _
      · exact finishes_pure _
    · exact finishes_throw _
    · exact finishes_throw _

end

theorem parsePolicy_finishes (tokens : List Token) (more : ℕ) :
    Finishes (parsePolicy (enoughDepth tokens + more) ⟨tokens, 0⟩) := by
  have hleft : left ⟨tokens, 0⟩ = tokens.length := by simp [left]
  have hdepth : 4 * left ⟨tokens, 0⟩ + 3 ≤ enoughDepth tokens + more := by
    rw [hleft, enoughDepth]
    omega
  apply finishes_bind (parseOr_finishes hdepth)
  rintro ⟨tree, p⟩ _
  dsimp only
  split_ifs
  · exact finishes_throw _
  · exact finishes_pure _

theorem parsePolicy_isSome (tokens : List Token) :
    (parsePolicy (enoughDepth tokens) ⟨tokens, 0⟩ : Option _).isSome :=
  Option.isSome_iff_ne_none.2 (parsePolicy_finishes tokens 0)

/-- Parses a policy expression. -/
def parse (input : String) : Except PolicyError AccessTree := do
  let tokens ← tokenize input
  if tokens.isEmpty then .error .unexpectedEof
  else (parsePolicy (enoughDepth tokens) ⟨tokens, 0⟩).get (parsePolicy_isSome tokens)

/-! ## Completeness -/

/-- No attribute token is the empty word. -/
def WordsNonempty (p : Parser) : Prop := ∀ word, .attr word ∈ p.tokens → word ≠ ""

theorem WordsNonempty.of_consumed {p p' : Parser} (hp : WordsNonempty p) {ts : List Token}
    (h : Consumed p ts p') : WordsNonempty p' := by
  obtain ⟨rfl, -⟩ := h
  exact hp

mutual

/-- The parser finds the tree of a derivation that no operator follows. -/
theorem parseOr_complete : ∀ (e : OrExpr) {depth : ℕ} {p p' : Parser}, WordsNonempty p →
    Consumed p e.tokens p' →
    p'.peek ≠ some .or → p'.peek ≠ some .and → 4 * e.tokens.length + 3 ≤ depth →
      parseOr depth p = pure (e.tree, p')
  | .chain first rest, depth + 1, p, p', hp, h, hor, hand, hdepth => by
    rw [OrExpr.tokens] at h hdepth
    rw [List.length_append] at hdepth
    obtain ⟨p₁, hfirst, hrest⟩ := consumed_append.1 h
    have hpeek : p₁.peek ≠ some .and := by
      cases rest with
      | nil =>
        obtain ⟨rfl, -⟩ := hrest
        exact hand
      | cons e es =>
        rw [(consumed_cons.1 hrest).1]
        simp
    rw [parseOr, parseAnd_complete first hp hfirst hpeek (by omega), pure_bind]
    dsimp only
    rw [parseOrLoop_complete rest (hp.of_consumed hfirst) hrest hor hand (by omega), pure_bind]
    exact orChain_eq first rest p'

theorem parseOrLoop_complete : ∀ (es : List AndExpr) {depth : ℕ} {children : List AccessTree}
    {p p' : Parser}, WordsNonempty p → Consumed p (orTokens es) p' → p'.peek ≠ some .or → p'.peek ≠ some .and →
      4 * (orTokens es).length + 1 ≤ depth →
        parseOrLoop depth children p = pure (children ++ andTrees es, p')
  | [], depth + 1, children, p, p', _, h, hor, _, _ => by
    obtain ⟨rfl, -⟩ := h
    unfold parseOrLoop andTrees
    rw [List.append_nil]
    split
    · exact absurd ‹_› hor
    · rfl
  | e :: es, depth + 1, children, p, p', hp, h, hor, hand, hdepth => by
    rw [orTokens] at h hdepth
    rw [List.length_cons, List.length_append] at hdepth
    obtain ⟨hpeek, h⟩ := consumed_cons.1 h
    have hp₁ : WordsNonempty p.next.2 := hp
    obtain ⟨p₁, hfirst, hrest⟩ := consumed_append.1 h
    have hpeek₁ : p₁.peek ≠ some .and := by
      cases es with
      | nil =>
        obtain ⟨rfl, -⟩ := hrest
        exact hand
      | cons e es =>
        rw [(consumed_cons.1 hrest).1]
        simp
    rw [parseOrLoop, hpeek]
    dsimp only
    rw [parseAnd_complete e hp₁ hfirst hpeek₁ (by omega), pure_bind]
    dsimp only
    rw [parseOrLoop_complete es (hp₁.of_consumed hfirst) hrest hor hand (by omega), andTrees, List.append_assoc,
      List.singleton_append]

theorem parseAnd_complete : ∀ (e : AndExpr) {depth : ℕ} {p p' : Parser}, WordsNonempty p →
    Consumed p e.tokens p' →
    p'.peek ≠ some .and → 4 * e.tokens.length + 2 ≤ depth →
      parseAnd depth p = pure (e.tree, p')
  | .chain first rest, depth + 1, p, p', hp, h, hand, hdepth => by
    rw [AndExpr.tokens] at h hdepth
    rw [List.length_append] at hdepth
    obtain ⟨p₁, hfirst, hrest⟩ := consumed_append.1 h
    rw [parseAnd, parseAtom_complete first hp hfirst (by omega), pure_bind]
    dsimp only
    rw [parseAndLoop_complete rest (hp.of_consumed hfirst) hrest hand (by omega), pure_bind]
    exact andChain_eq first rest p'

theorem parseAndLoop_complete : ∀ (as : List Atom) {depth : ℕ} {children : List AccessTree}
    {p p' : Parser}, WordsNonempty p → Consumed p (andTokens as) p' → p'.peek ≠ some .and →
      4 * (andTokens as).length + 1 ≤ depth →
        parseAndLoop depth children p = pure (children ++ atomTrees as, p')
  | [], depth + 1, children, p, p', _, h, hand, _ => by
    obtain ⟨rfl, -⟩ := h
    unfold parseAndLoop atomTrees
    rw [List.append_nil]
    split
    · exact absurd ‹_› hand
    · rfl
  | a :: as, depth + 1, children, p, p', hp, h, hand, hdepth => by
    rw [andTokens] at h hdepth
    rw [List.length_cons, List.length_append] at hdepth
    obtain ⟨hpeek, h⟩ := consumed_cons.1 h
    have hp₁ : WordsNonempty p.next.2 := hp
    obtain ⟨p₁, hfirst, hrest⟩ := consumed_append.1 h
    rw [parseAndLoop, hpeek]
    dsimp only
    rw [parseAtom_complete a hp₁ hfirst (by omega), pure_bind]
    dsimp only
    rw [parseAndLoop_complete as (hp₁.of_consumed hfirst) hrest hand (by omega), atomTrees, List.append_assoc,
      List.singleton_append]

theorem parseAtom_complete : ∀ (a : Atom) {depth : ℕ} {p p' : Parser}, WordsNonempty p →
    Consumed p a.tokens p' →
    4 * a.tokens.length ≤ depth → parseAtom depth p = pure (a.tree, p')
  | .paren inner, 0, _, _, _, _, hdepth => by simp [Atom.tokens] at hdepth
  | .attr word, 0, _, _, _, _, hdepth => by simp [Atom.tokens] at hdepth
  | .paren inner, depth + 1, p, p', hp, h, hdepth => by
    rw [Atom.tokens] at h hdepth
    rw [List.length_cons, List.length_append, List.length_singleton] at hdepth
    obtain ⟨hpeek, h⟩ := consumed_cons.1 h
    have hp₁ : WordsNonempty p.next.2 := hp
    obtain ⟨p₁, hinner, hclose⟩ := consumed_append.1 h
    obtain ⟨hpeek₁, rfl, -⟩ := consumed_cons.1 hclose
    have hnext : p.next = (some .lParen, p.next.2) := Prod.ext hpeek rfl
    have hnext₁ : p₁.next = (some .rParen, p₁.next.2) := Prod.ext hpeek₁ rfl
    rw [parseAtom, hnext]
    dsimp only
    rw [parseOr_complete inner hp₁ hinner (by rw [hpeek₁]; simp) (by rw [hpeek₁]; simp) (by omega),
      pure_bind]
    dsimp only
    rw [hnext₁]
    rfl
  | .attr word, depth + 1, p, p', hp, h, _ => by
    obtain ⟨hpeek, rfl, -⟩ := consumed_cons.1 h
    have hnext : p.next = (some (.attr word), p.next.2) := Prod.ext hpeek rfl
    have hword : word ≠ "" := hp word (List.mem_of_getElem? hpeek)
    rw [parseAtom, hnext]
    simp only [String.isEmpty_iff, hword]
    rfl

end

theorem parsePolicy_eq_pure {tokens : List Token} (hwords : WordsNonempty ⟨tokens, 0⟩)
    {t : AccessTree} : parsePolicy (enoughDepth tokens) ⟨tokens, 0⟩ = pure t ↔
      ∃ e : OrExpr, e.tokens = tokens ∧ e.tree = t := by
  constructor
  · intro h
    obtain ⟨⟨tree, p⟩, htree, h⟩ := bounded_bind_eq_pure.1 h
    obtain ⟨e, ⟨rfl, hpre⟩, rfl⟩ := parseOr_sound _ htree
    dsimp only at h hpre
    split_ifs at h with hpos
    · cases h
    · cases h
      refine ⟨e, hpre.eq_of_length ?_, rfl⟩
      simpa using hpos
  · rintro ⟨e, rfl, rfl⟩
    have hend : (⟨e.tokens, 0 + e.tokens.length⟩ : Parser).peek = none := by simp [Parser.peek]
    rw [parsePolicy, enoughDepth, parseOr_complete e hwords ⟨rfl, List.prefix_refl _⟩ (by rw [hend]; simp)
      (by rw [hend]; simp) le_rfl, pure_bind]
    simp

/-- **The parser returns exactly the trees of derivations.** -/
theorem parse_eq_ok {input : String} {t : AccessTree} :
    parse input = .ok t ↔ ∃ e : OrExpr, Lexes input.toList e.tokens ∧ e.tree = t := by
  have hlex := tokenize_eq_ok.1 (tokenize_eq input)
  have hwords : WordsNonempty ⟨tokensOf [] input.toList, 0⟩ := fun _ => attr_ne_empty hlex
  have hget : ∀ (x : Option (Except PolicyError AccessTree)) (h : x.isSome),
      x.get h = .ok t ↔ x = some (.ok t) := by
    intro x h
    obtain ⟨r, rfl⟩ := Option.isSome_iff_exists.1 h
    rw [Option.get_some, Option.some.injEq]
  have hderives : ∀ e : OrExpr,
      Lexes input.toList e.tokens ↔ e.tokens = tokensOf [] input.toList := fun e =>
    ⟨eq_tokensOf_of_lexes, fun h => h ▸ hlex⟩
  simp only [hderives]
  rw [← parsePolicy_eq_pure hwords, parse, tokenize_eq]
  change (if (tokensOf [] input.toList).isEmpty then _ else _) = _ ↔ _
  by_cases hempty : (tokensOf [] input.toList).isEmpty
  · rw [if_pos hempty, List.isEmpty_iff.1 hempty]
    exact ⟨nofun, nofun⟩
  · rw [if_neg hempty]
    exact hget _ _

/-! ## The meaning of a policy -/

mutual

/-- **The tree of a derivation is satisfied exactly when the policy is true.** -/
theorem OrExpr.isSatisfiedBy_tree (A : List String) : ∀ e : OrExpr,
    e.tree.isSatisfiedBy A = e.truth fun word => decide (normalize word ∈ A)
  | .chain first [] => by
    unfold OrExpr.tree OrExpr.truth orTruth
    rw [Bool.or_false, AndExpr.isSatisfiedBy_tree A first]
  | .chain first (e :: es) => by
    have hor := any_andTrees A (first :: e :: es)
    rw [OrExpr.tree, AccessTree.isSatisfiedBy_gate, OrExpr.truth, Bool.eq_iff_iff, decide_eq_true_eq,
      Nat.one_le_iff_ne_zero, ← Nat.pos_iff_ne_zero, List.countP_pos_iff, ← List.any_eq_true]
    rw [Bool.eq_iff_iff] at hor
    exact hor

theorem any_andTrees (A : List String) : ∀ es : List AndExpr,
    (andTrees es).any (·.isSatisfiedBy A) = orTruth (fun word => decide (normalize word ∈ A)) es
  | [] => rfl
  | e :: es => by
    rw [andTrees, List.any_cons, orTruth, AndExpr.isSatisfiedBy_tree A e, any_andTrees A es]

theorem AndExpr.isSatisfiedBy_tree (A : List String) : ∀ e : AndExpr,
    e.tree.isSatisfiedBy A = e.truth fun word => decide (normalize word ∈ A)
  | .chain first [] => by
    unfold AndExpr.tree AndExpr.truth andTruth
    rw [Bool.and_true, Atom.isSatisfiedBy_tree A first]
  | .chain first (a :: as) => by
    have hand := all_atomTrees A (first :: a :: as)
    have hlen : as.length + 2 = (atomTrees (first :: a :: as)).length := by
      rw [length_atomTrees, List.length_cons, List.length_cons]
    rw [AndExpr.tree, AccessTree.isSatisfiedBy_gate, AndExpr.truth, Bool.eq_iff_iff,
      decide_eq_true_eq, hlen]
    rw [Bool.eq_iff_iff, List.all_eq_true] at hand
    refine Iff.trans ?_ hand
    rw [← List.countP_eq_length]
    exact ⟨fun h => le_antisymm List.countP_le_length h, fun h => h.ge⟩

theorem all_atomTrees (A : List String) : ∀ as : List Atom,
    (atomTrees as).all (·.isSatisfiedBy A) = andTruth (fun word => decide (normalize word ∈ A)) as
  | [] => rfl
  | a :: as => by
    rw [atomTrees, List.all_cons, andTruth, Atom.isSatisfiedBy_tree A a, all_atomTrees A as]

theorem Atom.isSatisfiedBy_tree (A : List String) : ∀ a : Atom,
    a.tree.isSatisfiedBy A = a.truth fun word => decide (normalize word ∈ A)
  | .paren inner => OrExpr.isSatisfiedBy_tree A inner
  | .attr word => AccessTree.isSatisfiedBy_leaf (normalize word) A

end

/-- **The parser accepts exactly its grammar and gives it its Boolean meaning.** It always
terminates, whatever depth it is given beyond the one it starts with. -/
theorem parse_correct (input : String) :
    (∀ t, parse input = .ok t ↔ ∃ e : OrExpr, Lexes input.toList e.tokens ∧ e.tree = t) ∧
      (∀ (e : OrExpr) (A : List String),
        e.tree.isSatisfiedBy A = e.truth fun word => decide (normalize word ∈ A)) ∧
      ∃ tokens, tokenize input = .ok tokens ∧
        ∀ more, Finishes (parsePolicy (enoughDepth tokens + more) ⟨tokens, 0⟩) :=
  ⟨fun _ => parse_eq_ok, fun e A => OrExpr.isSatisfiedBy_tree A e,
    _, tokenize_eq input, parsePolicy_finishes _⟩

end SecureABE.Policy
