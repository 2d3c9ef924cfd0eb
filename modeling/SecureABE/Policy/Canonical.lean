import SecureABE.Policy.Parsing

/-!
# The leaves of parsed policies

A word of a policy that is no keyword becomes the leaf `normalize word`, which is the word without its
double quotes. The parser looks for empty words and for keywords before it takes the quotes away, so
that a word of quotes is a leaf without a name and a quoted keyword is a leaf that is read as the
keyword itself.

* `leaves_tree`: the leaves of a derivation are its words, normalized.
* `forall_canonical_iff`: all leaves of a policy are canonical exactly if no word of it is a quoted
  keyword or consists of quotes only.
-/

namespace SecureABE.Policy

open Rust

/-! ## The words of a text -/

/-- The longest runs of characters other than whitespace and parentheses. -/
def words (text : List Char) : List (List Char) :=
  (text.splitOnP fun c => !isWordChar c).filter fun w => !w.isEmpty

@[simp] theorem words_nil : words [] = [] := rfl

theorem words_cons_of_not {c : Char} (hc : isWordChar c = false) (text : List Char) :
    words (c :: text) = words text := by
  simp [words, List.splitOnP_cons_eq_if_modifyHead, hc]

theorem words_word_append {w text : List Char} (hw : w ≠ []) (hchars : ∀ c ∈ w, isWordChar c)
    (htext : ∀ c ∈ text.head?, isWordChar c = false) : words (w ++ text) = w :: words text := by
  have hnot : ∀ c ∈ w, (!isWordChar c) = false := fun c hc => by rw [hchars c hc]; rfl
  cases text with
  | nil => simp [words, List.splitOnP_eq_singleton hnot, hw]
  | cons c text =>
    have hc : isWordChar c = false := htext c rfl
    rw [words_cons_of_not hc, words, List.splitOnP_append_cons_of_forall_mem hnot c (by rw [hc]; rfl)]
    simp [words, hw]

theorem words_of_forall {w : List Char} (hw : w ≠ []) (hchars : ∀ c ∈ w, isWordChar c) :
    words w = [w] := by
  have h : words (w ++ []) = w :: words [] := words_word_append hw hchars (by simp)
  rwa [List.append_nil, words_nil] at h

theorem ne_nil_of_mem_words {text w : List Char} (hw : w ∈ words text) : w ≠ [] := by
  have := (List.mem_filter.1 hw).2
  simpa using this

theorem isWordChar_of_isWhitespace {c : Char} (hc : isWhitespace c = true) : isWordChar c = false := by
  simp [isWordChar, hc]

/-- A word has no whitespace and no parentheses. -/
theorem isWordChar_of_mem_words {text w : List Char} (hw : w ∈ words text) : ∀ c ∈ w, isWordChar c := by
  obtain ⟨tokens, hlex⟩ : ∃ tokens, Lexes text tokens := ⟨_, lexes_tokensOf text [] (by simp)⟩
  induction hlex with
  | nil => simp at hw
  | space hc _ ih =>
    rw [words_cons_of_not (isWordChar_of_isWhitespace hc)] at hw
    exact ih hw
  | lParen _ ih | rParen _ ih =>
    rw [words_cons_of_not rfl] at hw
    exact ih hw
  | word hne hchars htext _ ih =>
    rw [words_word_append hne hchars htext] at hw
    rcases List.mem_cons.1 hw with rfl | hw
    · exact hchars
    · exact ih hw

/-! ## Words and tokens -/

/-- The word is read as a keyword. -/
def isKeyword (w : List Char) : Bool :=
  toAsciiUppercase w == ['A', 'N', 'D'] || toAsciiUppercase w == ['O', 'R']

theorem wordToken_eq_attr {w : List Char} {word : String} :
    wordToken w = .attr word ↔ isKeyword w = false ∧ w = word.toList := by
  unfold wordToken
  split_ifs with hand hor
  · simp [isKeyword, hand]
  · simp [isKeyword, hor]
  · simp [isKeyword, hand, hor, ← String.toList_inj]

def Token.isParen : Token → Bool
  | .lParen | .rParen => true
  | _ => false

theorem isParen_wordToken (w : List Char) : (wordToken w).isParen = false := by
  unfold wordToken
  split_ifs <;> rfl

/-- The tokens of a text other than its parentheses are those of its words, in order. -/
theorem map_wordToken_words {text : List Char} {tokens : List Token} (h : Lexes text tokens) :
    (words text).map wordToken = tokens.filter fun t => !t.isParen := by
  induction h with
  | nil => rfl
  | space hc _ ih => rw [words_cons_of_not (isWordChar_of_isWhitespace hc), ih]
  | lParen _ ih | rParen _ ih =>
    rw [words_cons_of_not rfl, ih]
    rfl
  | @word w text tokens hne hchars htext _ ih =>
    rw [words_word_append hne hchars htext, List.map_cons, ih,
      List.filter_cons_of_pos (by rw [isParen_wordToken]; rfl)]

/-- The attribute tokens of a text are its words that are no keywords. -/
theorem attr_mem_iff {text : List Char} {tokens : List Token} (h : Lexes text tokens) {word : String} :
    .attr word ∈ tokens ↔ word.toList ∈ words text ∧ isKeyword word.toList = false := by
  have hmem : Token.attr word ∈ tokens ↔ .attr word ∈ (words text).map wordToken := by
    simp [map_wordToken_words h, Token.isParen]
  rw [hmem, List.mem_map]
  constructor
  · rintro ⟨w, hw, heq⟩
    obtain ⟨hkey, rfl⟩ := wordToken_eq_attr.1 heq
    exact ⟨hw, hkey⟩
  · rintro ⟨hw, hkey⟩
    exact ⟨_, hw, wordToken_eq_attr.2 ⟨hkey, rfl⟩⟩

/-- The words of a text one after the other are its characters that words consist of. -/
theorem flatten_words (text : List Char) : (words text).flatten = text.filter isWordChar := by
  obtain ⟨tokens, hlex⟩ : ∃ tokens, Lexes text tokens := ⟨_, lexes_tokensOf text [] (by simp)⟩
  induction hlex with
  | nil => rfl
  | space hc _ ih =>
    have hnot := isWordChar_of_isWhitespace hc
    rw [words_cons_of_not hnot, ih, List.filter_cons_of_neg (by rw [hnot]; decide)]
  | lParen _ ih | rParen _ ih =>
    rw [words_cons_of_not rfl, ih]
    rfl
  | word hne hchars htext _ ih =>
    rw [words_word_append hne hchars htext, List.flatten_cons, ih, List.filter_append,
      List.filter_eq_self.2 hchars]

/-! ## The leaves of a derivation -/

/-- The word of an attribute token. -/
def Token.word? : Token → Option String
  | .attr word => some word
  | _ => none

/-- The words of the attribute tokens. -/
def attrWords (tokens : List Token) : List String := tokens.filterMap Token.word?

theorem attrWords_append (ts us : List Token) : attrWords (ts ++ us) = attrWords ts ++ attrWords us :=
  List.filterMap_append

@[simp] theorem attrWords_lParen (ts : List Token) : attrWords (.lParen :: ts) = attrWords ts := rfl

@[simp] theorem attrWords_or (ts : List Token) : attrWords (.or :: ts) = attrWords ts := rfl

@[simp] theorem attrWords_and (ts : List Token) : attrWords (.and :: ts) = attrWords ts := rfl

theorem mem_attrWords {word : String} {tokens : List Token} :
    word ∈ attrWords tokens ↔ .attr word ∈ tokens := by
  rw [attrWords, List.mem_filterMap]
  constructor
  · rintro ⟨t, ht, hword⟩
    cases t with
    | attr w => rwa [← Option.some.inj hword]
    | lParen | rParen | and | or => cases hword
  · intro h
    exact ⟨_, h, rfl⟩

mutual

/-- **The leaves of a derivation are its words, normalized**, from left to right. -/
theorem OrExpr.leaves_tree : ∀ e : OrExpr, e.tree.leaves = (attrWords e.tokens).map normalize
  | .chain first [] => by
    unfold OrExpr.tree OrExpr.tokens orTokens
    rw [List.append_nil, AndExpr.leaves_tree first]
  | .chain first (e :: es) => by
    rw [OrExpr.tree, OrExpr.tokens, orTokens, attrWords_append, attrWords_or, attrWords_append,
      List.map_append, List.map_append, ← AndExpr.leaves_tree first, ← AndExpr.leaves_tree e,
      ← leavesOf_andTrees es]
    rfl

theorem leavesOf_andTrees : ∀ es : List AndExpr,
    AccessTree.leavesOf (andTrees es) = (attrWords (orTokens es)).map normalize
  | [] => rfl
  | e :: es => by
    rw [andTrees, AccessTree.leavesOf, orTokens, attrWords_or, attrWords_append, List.map_append,
      AndExpr.leaves_tree e, leavesOf_andTrees es]

theorem AndExpr.leaves_tree : ∀ e : AndExpr, e.tree.leaves = (attrWords e.tokens).map normalize
  | .chain first [] => by
    unfold AndExpr.tree AndExpr.tokens andTokens
    rw [List.append_nil, Atom.leaves_tree first]
  | .chain first (a :: as) => by
    rw [AndExpr.tree, AndExpr.tokens, andTokens, attrWords_append, attrWords_and, attrWords_append,
      List.map_append, List.map_append, ← Atom.leaves_tree first, ← Atom.leaves_tree a,
      ← leavesOf_atomTrees as]
    rfl

theorem leavesOf_atomTrees : ∀ as : List Atom,
    AccessTree.leavesOf (atomTrees as) = (attrWords (andTokens as)).map normalize
  | [] => rfl
  | a :: as => by
    rw [atomTrees, AccessTree.leavesOf, andTokens, attrWords_and, attrWords_append, List.map_append,
      Atom.leaves_tree a, leavesOf_atomTrees as]

theorem Atom.leaves_tree : ∀ a : Atom, a.tree.leaves = (attrWords a.tokens).map normalize
  | .paren inner => by
    have hparen : attrWords [.rParen] = [] := rfl
    rw [Atom.tree, Atom.tokens, attrWords_lParen, attrWords_append, hparen, List.append_nil,
      OrExpr.leaves_tree inner]
  | .attr word => rfl

end

/-- The leaves of a policy are the words of its text that are no keywords, normalized. -/
theorem mem_leaves_of_parse {input : String} {t : AccessTree} (h : parse input = .ok t) {l : String} :
    l ∈ t.leaves ↔ ∃ word : String,
      word.toList ∈ words input.toList ∧ isKeyword word.toList = false ∧ normalize word = l := by
  obtain ⟨e, hlex, rfl⟩ := parse_eq_ok.1 h
  simp only [OrExpr.leaves_tree, List.mem_map, mem_attrWords, attr_mem_iff hlex, and_assoc]

/-! ## Normalization -/

/-- A word without its double quotes. -/
def unquoted (w : List Char) : List Char := w.filter (· ≠ '"')

theorem unquoted_of_notMem {w : List Char} (h : '"' ∉ w) : unquoted w = w :=
  List.filter_eq_self.2 fun c hc => by simpa using ne_of_mem_of_not_mem hc h

theorem isWhitespace_of_isWordChar {c : Char} (h : isWordChar c = true) : isWhitespace c = false :=
  (isWordChar_iff.1 h).2.2

/-- Of a word, `normalize` only takes the double quotes away. -/
theorem toList_normalize {word : String} (hchars : ∀ c ∈ word.toList, isWordChar c) :
    (normalize word).toList = unquoted word.toList := by
  have hspace : (unquoted word.toList).filter (· ≠ ' ') = unquoted word.toList := by
    apply List.filter_eq_self.2
    intro c hc
    have hc := isWhitespace_of_isWordChar (hchars c (List.mem_filter.1 hc).1)
    have : c ≠ ' ' := fun h => absurd hc (by rw [h]; decide)
    simpa using this
  rw [normalize, String.toList_ofList, ← unquoted, hspace]
  exact trim_of_forall fun c hc => isWhitespace_of_isWordChar (hchars c (List.mem_filter.1 hc).1)

/-- A word is parsed as a leaf. -/
theorem parse_word {word : String} (hne : word.toList ≠ []) (hchars : ∀ c ∈ word.toList, isWordChar c)
    (hkey : isKeyword word.toList = false) : parse word = .ok (.leaf (normalize word)) := by
  refine parse_eq_ok.2 ⟨.chain (.chain (.attr word) []) [], ?_, rfl⟩
  have hlex := Lexes.word hne hchars (by simp) Lexes.nil
  rwa [List.append_nil, wordToken_eq_attr.2 ⟨hkey, rfl⟩] at hlex

/-! ## Policies of one leaf -/

mutual

/-- A derivation with the tree of a leaf derives one word, in parentheses. -/
theorem OrExpr.filter_tokens_of_leaf {l : String} : ∀ e : OrExpr, e.tree = .leaf l →
    ∃ word, (e.tokens.filter fun t => !t.isParen) = [.attr word] ∧ normalize word = l
  | .chain first [], h => by
    unfold OrExpr.tree at h
    unfold OrExpr.tokens orTokens
    rw [List.append_nil]
    exact AndExpr.filter_tokens_of_leaf first h
  | .chain first (e :: es), h => by
    unfold OrExpr.tree at h
    cases h

theorem AndExpr.filter_tokens_of_leaf {l : String} : ∀ e : AndExpr, e.tree = .leaf l →
    ∃ word, (e.tokens.filter fun t => !t.isParen) = [.attr word] ∧ normalize word = l
  | .chain first [], h => by
    unfold AndExpr.tree at h
    unfold AndExpr.tokens andTokens
    rw [List.append_nil]
    exact Atom.filter_tokens_of_leaf first h
  | .chain first (a :: as), h => by
    unfold AndExpr.tree at h
    cases h

theorem Atom.filter_tokens_of_leaf {l : String} : ∀ a : Atom, a.tree = .leaf l →
    ∃ word, (a.tokens.filter fun t => !t.isParen) = [.attr word] ∧ normalize word = l
  | .paren inner, h => by
    unfold Atom.tree at h
    obtain ⟨word, htokens, hword⟩ := OrExpr.filter_tokens_of_leaf inner h
    have hparen : ([Token.rParen].filter fun t => !t.isParen) = [] := rfl
    refine ⟨word, ?_, hword⟩
    rw [Atom.tokens, List.filter_cons_of_neg (by decide), List.filter_append, htokens, hparen,
      List.append_nil]
  | .attr word, h => ⟨word, rfl, AccessTree.leaf.inj h⟩

end

/-- **The leaf of a policy of one leaf** is the text of the policy without whitespace, parentheses and
double quotes. -/
theorem toList_leaf_of_parse {input l : String} (h : parse input = .ok (.leaf l)) :
    l.toList = unquoted (input.toList.filter isWordChar) := by
  obtain ⟨e, hlex, htree⟩ := parse_eq_ok.1 h
  obtain ⟨word, htokens, rfl⟩ := OrExpr.filter_tokens_of_leaf e htree
  rw [← map_wordToken_words hlex, List.map_eq_singleton_iff] at htokens
  obtain ⟨w, hwords, hw⟩ := htokens
  obtain ⟨-, rfl⟩ := wordToken_eq_attr.1 hw
  have hchars : ∀ c ∈ word.toList, isWordChar c :=
    isWordChar_of_mem_words (hwords ▸ List.mem_singleton_self _)
  rw [toList_normalize hchars, ← flatten_words, hwords, List.flatten_singleton]

/-! ## Canonical leaves -/

/-- The name of a leaf has characters, only such that words consist of and no double quotes, and the
parser reads the leaf back. -/
structure Canonical (l : String) : Prop where
  ne_empty : l ≠ ""
  chars : ∀ c ∈ l.toList, c ≠ '"' ∧ isWhitespace c = false ∧ c ≠ '(' ∧ c ≠ ')'
  parse_self : parse l = .ok (.leaf l)

/-- Without its quotes a word that has some is still a word and no keyword. -/
def Named (w : List Char) : Prop := '"' ∈ w → unquoted w ≠ [] ∧ isKeyword (unquoted w) = false

instance (w : List Char) : Decidable (Named w) := inferInstanceAs (Decidable (_ → _))

/-- A word with a double quote is no keyword. -/
theorem isKeyword_of_quote_mem {w : List Char} (h : '"' ∈ w) : isKeyword w = false := by
  have hmem : '"' ∈ toAsciiUppercase w := List.mem_map.2 ⟨_, h, rfl⟩
  rw [isKeyword, Bool.or_eq_false_iff]
  constructor
  · rw [beq_eq_false_iff_ne]
    intro heq
    rw [heq] at hmem
    revert hmem
    decide
  · rw [beq_eq_false_iff_ne]
    intro heq
    rw [heq] at hmem
    revert hmem
    decide

/-- The leaf of a word is canonical exactly if it is neither empty nor a keyword. -/
theorem canonical_normalize_iff {word : String} (hchars : ∀ c ∈ word.toList, isWordChar c) :
    Canonical (normalize word) ↔
      unquoted word.toList ≠ [] ∧ isKeyword (unquoted word.toList) = false := by
  have hlist := toList_normalize hchars
  have hleaf : ∀ c ∈ (normalize word).toList, isWordChar c := by
    rw [hlist]
    exact fun c hc => hchars c (List.mem_filter.1 hc).1
  have hquote : '"' ∉ (normalize word).toList := by
    rw [hlist, unquoted]
    simp
  rw [← hlist]
  constructor
  · intro h
    have hne : (normalize word).toList ≠ [] := by simpa using h.ne_empty
    -- the leaf is a word of its own text, so it is read back only if it is no keyword
    obtain ⟨w, hw, hkey, -⟩ := (mem_leaves_of_parse h.parse_self).1 (List.mem_singleton_self _)
    rw [words_of_forall hne hleaf, List.mem_singleton] at hw
    exact ⟨hne, hw ▸ hkey⟩
  · rintro ⟨hne, hkey⟩
    refine ⟨by simpa using hne, fun c hc => ?_, ?_⟩
    · obtain ⟨hl, hr, hspace⟩ := isWordChar_iff.1 (hleaf c hc)
      exact ⟨ne_of_mem_of_not_mem hc hquote, hspace, hl, hr⟩
    · have hself : normalize (normalize word) = normalize word := by
        rw [← String.toList_inj, toList_normalize hleaf, unquoted_of_notMem hquote]
      rw [parse_word hne hleaf hkey, hself]

/-- **The leaves of a policy are canonical** exactly if every word of the policy with a double quote is
still a word, and no keyword, without its quotes. -/
theorem forall_canonical_iff {input : String} {t : AccessTree} (h : parse input = .ok t) :
    (∀ l ∈ t.leaves, Canonical l) ↔ ∀ w ∈ words input.toList, Named w := by
  constructor
  · intro hleaves w hw hquote
    have hchars := isWordChar_of_mem_words hw
    rw [← String.toList_ofList (l := w)] at hw hchars
    have hmem := (mem_leaves_of_parse h).2
      ⟨String.ofList w, hw, by simpa using isKeyword_of_quote_mem hquote, rfl⟩
    simpa using (canonical_normalize_iff hchars).1 (hleaves _ hmem)
  · intro hwords l hl
    obtain ⟨word, hw, hkey, rfl⟩ := (mem_leaves_of_parse h).1 hl
    apply (canonical_normalize_iff (isWordChar_of_mem_words hw)).2
    by_cases hquote : '"' ∈ word.toList
    · exact hwords _ hw hquote
    · rw [unquoted_of_notMem hquote]
      exact ⟨ne_nil_of_mem_words hw, hkey⟩

theorem parse_quotedName : parse "\"a\"" = .ok (.leaf "a") :=
  parse_word (by decide) (List.all_eq_true.1 (by decide)) (by decide)

theorem forall_canonical_iff_quotedName : parse "\"a\"" = .ok (.leaf "a") ∧
    ((∀ l ∈ (AccessTree.leaf "a").leaves, Canonical l) ↔ ∀ w ∈ words "\"a\"".toList, Named w) :=
  ⟨parse_quotedName, forall_canonical_iff parse_quotedName⟩

/-- A pair of quotes is parsed as a leaf without a name. -/
theorem not_canonical_quotes :
    ¬ ∀ (input : String) (t : AccessTree), parse input = .ok t → ∀ l ∈ t.leaves, Canonical l := by
  intro h
  have hparse : parse "\"\"" = .ok (.leaf "") :=
    parse_word (by decide) (List.all_eq_true.1 (by decide)) (by decide)
  exact (h _ _ hparse "" (List.mem_singleton_self _)).ne_empty rfl

end SecureABE.Policy
