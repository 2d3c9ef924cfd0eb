import SecureABE.Policy.Parser

/-!
# The grammar of policies

What the parser is meant to accept, in terms of the text alone: how a text splits into tokens
(`Lexes`), the derivation trees of the grammar with the tokens they derive, the access tree of a
derivation and its truth value.
-/

namespace SecureABE.Policy

open Rust

/-! ## Words -/

/-- A character that words consist of. -/
def isWordChar (c : Char) : Bool := !(isWhitespace c || c == '(' || c == ')')

/-- The text splits into the tokens: words are as long as possible, and whitespace separates. -/
inductive Lexes : List Char → List Token → Prop
  | nil : Lexes [] []
  | space {c : Char} {text : List Char} {tokens : List Token} : isWhitespace c → Lexes text tokens →
    Lexes (c :: text) tokens
  | lParen {text : List Char} {tokens : List Token} : Lexes text tokens →
    Lexes ('(' :: text) (.lParen :: tokens)
  | rParen {text : List Char} {tokens : List Token} : Lexes text tokens →
    Lexes (')' :: text) (.rParen :: tokens)
  | word {w text : List Char} {tokens : List Token} : w ≠ [] → (∀ c ∈ w, isWordChar c) →
    (∀ c ∈ text.head?, isWordChar c = false) → Lexes text tokens →
    Lexes (w ++ text) (wordToken w :: tokens)

/-! ## Derivations -/

mutual

/-- `policy := and (OR and)*` -/
inductive OrExpr
  | chain (first : AndExpr) (rest : List AndExpr)

/-- `and := atom (AND atom)*` -/
inductive AndExpr
  | chain (first : Atom) (rest : List Atom)

/-- `atom := '(' policy ')' | attribute` -/
inductive Atom
  | paren (inner : OrExpr)
  | attr (word : String)

end

mutual

/-- The tokens that a derivation derives. -/
def OrExpr.tokens : OrExpr → List Token
  | .chain first rest => first.tokens ++ orTokens rest

def orTokens : List AndExpr → List Token
  | [] => []
  | e :: es => .or :: (e.tokens ++ orTokens es)

def AndExpr.tokens : AndExpr → List Token
  | .chain first rest => first.tokens ++ andTokens rest

def andTokens : List Atom → List Token
  | [] => []
  | a :: as => .and :: (a.tokens ++ andTokens as)

def Atom.tokens : Atom → List Token
  | .paren inner => .lParen :: (inner.tokens ++ [.rParen])
  | .attr word => [.attr word]

end

mutual

/-- The tree of a derivation: a chain of one operator is one gate, a chain of length one none. -/
def OrExpr.tree : OrExpr → AccessTree
  | .chain first [] => first.tree
  | .chain first (e :: es) => .gate 1 (first.tree :: e.tree :: andTrees es)

def andTrees : List AndExpr → List AccessTree
  | [] => []
  | e :: es => e.tree :: andTrees es

def AndExpr.tree : AndExpr → AccessTree
  | .chain first [] => first.tree
  | .chain first (a :: as) => .gate (as.length + 2) (first.tree :: a.tree :: atomTrees as)

def atomTrees : List Atom → List AccessTree
  | [] => []
  | a :: as => a.tree :: atomTrees as

def Atom.tree : Atom → AccessTree
  | .paren inner => inner.tree
  | .attr word => .leaf (normalize word)

end

mutual

/-- The truth value of a derivation, where `v` says which attribute words are true. -/
def OrExpr.truth (v : String → Bool) : OrExpr → Bool
  | .chain first rest => first.truth v || orTruth v rest

def orTruth (v : String → Bool) : List AndExpr → Bool
  | [] => false
  | e :: es => e.truth v || orTruth v es

def AndExpr.truth (v : String → Bool) : AndExpr → Bool
  | .chain first rest => first.truth v && andTruth v rest

def andTruth (v : String → Bool) : List Atom → Bool
  | [] => true
  | a :: as => a.truth v && andTruth v as

def Atom.truth (v : String → Bool) : Atom → Bool
  | .paren inner => inner.truth v
  | .attr word => v word

end

end SecureABE.Policy
