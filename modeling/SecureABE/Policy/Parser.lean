import SecureABE.Foundations.Text
import SecureABE.Policy.Tree

/-!
# The policy parser

`policy/src/parser.rs`. The parser keeps its tokens and a cursor `pos`, which moves past the end when
`next` finds no token. Its four functions call each other without a bound that Lean sees, so they
take the depth that is left and return `none` when it is used up; `Parsing` proves that the depth
that `parse` starts with always suffices.
-/

namespace SecureABE.Policy

open Rust

/-! ## Tokens -/

inductive Token
  | lParen
  | rParen
  | and
  | or
  | attr (word : String)
  deriving DecidableEq, Repr

/-- The derived `Debug`. -/
def Token.debug : Token → String
  | .lParen => "LParen"
  | .rParen => "RParen"
  | .and => "And"
  | .or => "Or"
  | .attr word => "Attr(" ++ debugStr word ++ ")"

/-- The `Debug` of an `Option<Token>`. -/
def debugPeek : Option Token → String
  | none => "None"
  | some t => "Some(" ++ t.debug ++ ")"

inductive PolicyError
  | unexpectedEof
  | unexpectedToken (debug : String)
  | emptyAttribute
  | unbalanced
  deriving DecidableEq, Repr

/-- The derived `Display`. -/
def PolicyError.toText : PolicyError → String
  | .unexpectedEof => "unexpected end of policy expression"
  | .unexpectedToken debug => "unexpected token: " ++ debug
  | .emptyAttribute => "empty attribute literal"
  | .unbalanced => "unbalanced parentheses"

/-- The token of a word that is complete. -/
def wordToken (word : List Char) : Token :=
  if toAsciiUppercase word = ['A', 'N', 'D'] then .and
  else if toAsciiUppercase word = ['O', 'R'] then .or
  else .attr (String.ofList word)

/-- The closure `flush` of `tokenize`: the word read so far, if any, becomes a token. -/
def flush (current : List Char) (tokens : List Token) :
    Except PolicyError (List Char × List Token) :=
  if current.isEmpty then .ok (current, tokens) else .ok ([], tokens ++ [wordToken current])

/-- One character of the loop of `tokenize`. -/
def tokenizeChar (st : List Char × List Token) (ch : Char) :
    Except PolicyError (List Char × List Token) :=
  let (current, tokens) := st
  if ch = '(' then do
    let (current, tokens) ← flush current tokens
    .ok (current, tokens ++ [.lParen])
  else if ch = ')' then do
    let (current, tokens) ← flush current tokens
    .ok (current, tokens ++ [.rParen])
  else if isWhitespace ch then flush current tokens
  else .ok (current ++ [ch], tokens)

def tokenize (input : String) : Except PolicyError (List Token) := do
  let (current, tokens) ← input.toList.foldlM tokenizeChar ([], [])
  let (_, tokens) ← flush current tokens
  .ok tokens

/-- Canonicalizes an attribute literal. -/
def normalize (raw : String) : String :=
  String.ofList (trim ((raw.toList.filter (· ≠ '"')).filter (· ≠ ' ')))

/-! ## The parser -/

structure Parser where
  tokens : List Token
  pos : ℕ

namespace Parser

def peek (p : Parser) : Option Token := p.tokens[p.pos]?

def next (p : Parser) : Option Token × Parser := (p.tokens[p.pos]?, { p with pos := p.pos + 1 })

end Parser

/-- A computation that may use up the depth of the recursion. -/
abbrev Bounded (α : Type) := ExceptT PolicyError Option α

/-- The depth is used up. -/
def tooDeep {α : Type} : Bounded α := (none : Option (Except PolicyError α))

mutual

/-- `orExpr := andExpr (OR andExpr)*` -/
def parseOr : ℕ → Parser → Bounded (AccessTree × Parser)
  | 0, _ => tooDeep
  | depth + 1, p => do
    let (child, p) ← parseAnd depth p
    let (children, p) ← parseOrLoop depth [child] p
    match children with
    | [child] => pure (child, p)
    | children => pure (AccessTree.or children, p)

/-- The loop of `parse_or`. -/
def parseOrLoop : ℕ → List AccessTree → Parser → Bounded (List AccessTree × Parser)
  | 0, _, _ => tooDeep
  | depth + 1, children, p =>
    match p.peek with
    | some .or => do
      let (_, p) := p.next
      let (child, p) ← parseAnd depth p
      parseOrLoop depth (children ++ [child]) p
    | _ => pure (children, p)

/-- `andExpr := atom (AND atom)*` -/
def parseAnd : ℕ → Parser → Bounded (AccessTree × Parser)
  | 0, _ => tooDeep
  | depth + 1, p => do
    let (child, p) ← parseAtom depth p
    let (children, p) ← parseAndLoop depth [child] p
    match children with
    | [child] => pure (child, p)
    | children => pure (AccessTree.and children, p)

/-- The loop of `parse_and`. -/
def parseAndLoop : ℕ → List AccessTree → Parser → Bounded (List AccessTree × Parser)
  | 0, _, _ => tooDeep
  | depth + 1, children, p =>
    match p.peek with
    | some .and => do
      let (_, p) := p.next
      let (child, p) ← parseAtom depth p
      parseAndLoop depth (children ++ [child]) p
    | _ => pure (children, p)

/-- `atom := '(' orExpr ')' | attribute` -/
def parseAtom : ℕ → Parser → Bounded (AccessTree × Parser)
  | 0, _ => tooDeep
  | depth + 1, p =>
    match p.next with
    | (some .lParen, p) => do
      let (inner, p) ← parseOr depth p
      match p.next with
      | (some .rParen, p) => pure (inner, p)
      | _ => throw .unbalanced
    | (some (.attr a), p) =>
      if a.isEmpty then throw .emptyAttribute else pure (.leaf (normalize a), p)
    | (some other, _) => throw (.unexpectedToken other.debug)
    | (none, _) => throw .unexpectedEof

end

/-- `policy := orExpr` -/
def parsePolicy (depth : ℕ) (p : Parser) : Bounded AccessTree := do
  let (tree, p) ← parseOr depth p
  if p.pos ≠ p.tokens.length then throw (.unexpectedToken (debugPeek p.peek)) else pure tree

/-- The depth that `parse` starts with. -/
def enoughDepth (tokens : List Token) : ℕ := 4 * tokens.length + 3

end SecureABE.Policy
