import SecureABE.Foundations.Json
import Mathlib.Data.Nat.Digits.Defs

/-!
# JSON texts

The compact and the indented text of a value, as `serde_json` prints them, and a parser with a limit
on the nesting. Text and value are connected through the list of tokens:

* `scan_render`: scanning a printed text, in either style, gives the tokens of the value;
* `parseValue_tokens`: parsing the tokens gives the value back, if it is not nested too deeply, and
  nothing otherwise.
-/

namespace Json

/-! ## Printing -/

/-- The hexadecimal digit of a number below 16. -/
def hexDigit (n : ℕ) : Char := if n < 10 then Char.ofNat (48 + n) else Char.ofNat (87 + n)

/-- One character inside a string literal. -/
def escape (c : Char) : List Char :=
  if c = '"' then ['\\', '"']
  else if c = '\\' then ['\\', '\\']
  else if c = '\x08' then ['\\', 'b']
  else if c = '\x0c' then ['\\', 'f']
  else if c = '\n' then ['\\', 'n']
  else if c = '\r' then ['\\', 'r']
  else if c = '\t' then ['\\', 't']
  else if c.toNat < 32 then ['\\', 'u', '0', '0', hexDigit (c.toNat / 16), hexDigit (c.toNat % 16)]
  else [c]

/-- A string literal. -/
def quote (s : String) : List Char := '"' :: (s.toList.flatMap escape ++ ['"'])

/-- What a printer puts between the tokens: before each element at a level, and after a colon. -/
structure Style where
  newline : ℕ → List Char
  colon : List Char

/-- `to_string`. -/
def compact : Style := ⟨fun _ => [], []⟩

/-- `to_string_pretty`. -/
def pretty : Style := ⟨fun level => '\n' :: List.replicate (2 * level) ' ', [' ']⟩

mutual

/-- The text of a value at a level. -/
def render (st : Style) (level : ℕ) : Json → List Char
  | .null => ['n', 'u', 'l', 'l']
  | .bool true => ['t', 'r', 'u', 'e']
  | .bool false => ['f', 'a', 'l', 's', 'e']
  | .num n => Nat.toDigits 10 n
  | .str s => quote s
  | .arr [] => ['[', ']']
  | .arr (e :: es) =>
    '[' :: (st.newline (level + 1) ++ (render st (level + 1) e ++ (renderElems st (level + 1) es ++
      (st.newline level ++ [']']))))
  | .obj [] => ['{', '}']
  | .obj ((k, e) :: ms) =>
    '{' :: (st.newline (level + 1) ++ (quote k ++ (':' :: (st.colon ++ (render st (level + 1) e ++
      (renderMembers st (level + 1) ms ++ (st.newline level ++ ['}'])))))))
termination_by structural j => j

/-- The further elements of an array. -/
def renderElems (st : Style) (level : ℕ) : List Json → List Char
  | [] => []
  | e :: es => ',' :: (st.newline level ++ (render st level e ++ renderElems st level es))
termination_by structural es => es

/-- The further members of an object. -/
def renderMembers (st : Style) (level : ℕ) : List (String × Json) → List Char
  | [] => []
  | (k, e) :: ms =>
    ',' :: (st.newline level ++ (quote k ++ (':' :: (st.colon ++ (render st level e ++
      renderMembers st level ms)))))
termination_by structural ms => ms

end

/-! ## Tokens -/

inductive Token
  | lBrace
  | rBrace
  | lBracket
  | rBracket
  | colon
  | comma
  | null
  | bool (b : Bool)
  | num (n : ℕ)
  | str (s : String)
  deriving DecidableEq, Repr

mutual

/-- The tokens of a value. -/
def tokens : Json → List Token
  | .null => [.null]
  | .bool b => [.bool b]
  | .num n => [.num n]
  | .str s => [.str s]
  | .arr [] => [.lBracket, .rBracket]
  | .arr (e :: es) => .lBracket :: (e.tokens ++ (elemTokens es ++ [.rBracket]))
  | .obj [] => [.lBrace, .rBrace]
  | .obj ((k, e) :: ms) =>
    .lBrace :: .str k :: .colon :: (e.tokens ++ (memberTokens ms ++ [.rBrace]))
termination_by structural j => j

def elemTokens : List Json → List Token
  | [] => []
  | e :: es => .comma :: (e.tokens ++ elemTokens es)
termination_by structural es => es

def memberTokens : List (String × Json) → List Token
  | [] => []
  | (k, e) :: ms => .comma :: .str k :: .colon :: (e.tokens ++ memberTokens ms)
termination_by structural ms => ms

end

/-! ## Scanning -/

/-- Where the scanner is: between tokens, in a string, after a backslash, in the digits of a
`\u` escape, in a number or in a word. -/
inductive ScanState
  | idle
  | inStr (acc : List Char)
  | inEscape (acc : List Char)
  | inHex (acc : List Char) (digits : List Char)
  | inNum (acc : List Char)
  | inWord (acc : List Char)
  deriving DecidableEq, Repr

/-- A character between tokens. -/
def scanIdle (c : Char) : Option (List Token × ScanState) :=
  if c = ' ' ∨ c = '\n' ∨ c = '\r' ∨ c = '\t' then some ([], .idle)
  else if c = '[' then some ([.lBracket], .idle)
  else if c = ']' then some ([.rBracket], .idle)
  else if c = '{' then some ([.lBrace], .idle)
  else if c = '}' then some ([.rBrace], .idle)
  else if c = ':' then some ([.colon], .idle)
  else if c = ',' then some ([.comma], .idle)
  else if c = '"' then some ([], .inStr [])
  else if c.isDigit then some ([], .inNum [c])
  else if c.isAlpha then some ([], .inWord [c])
  else none

/-- The token of the digits of a number, which has no leading zero. -/
def numToken (digits : List Char) : Option Token :=
  let n := Nat.ofDigitChars 10 digits 0
  if Nat.toDigits 10 n = digits then some (.num n) else none

def wordToken (word : List Char) : Option Token :=
  if word = ['n', 'u', 'l', 'l'] then some .null
  else if word = ['t', 'r', 'u', 'e'] then some (.bool true)
  else if word = ['f', 'a', 'l', 's', 'e'] then some (.bool false)
  else none

/-- The value of a hexadecimal digit. -/
def hexValue (c : Char) : Option ℕ :=
  if c.isDigit then some (c.toNat - 48)
  else if 'a' ≤ c ∧ c ≤ 'f' then some (c.toNat - 87)
  else if 'A' ≤ c ∧ c ≤ 'F' then some (c.toNat - 55)
  else none

/-- The character of an escape sequence of one letter. -/
def unescape (c : Char) : Option Char :=
  if c = '"' ∨ c = '\\' ∨ c = '/' then some c
  else if c = 'b' then some '\x08'
  else if c = 'f' then some '\x0c'
  else if c = 'n' then some '\n'
  else if c = 'r' then some '\r'
  else if c = 't' then some '\t'
  else none

/-- The character of four hexadecimal digits, if they are not part of a surrogate pair. -/
def hexChar (digits : List Char) : Option Char := do
  let values ← digits.mapM hexValue
  let n := values.foldl (fun n d => 16 * n + d) 0
  if 0xD800 ≤ n ∧ n < 0xE000 then none else some (Char.ofNat n)

/-- One character: the tokens that it completes and the next state. -/
def scanStep : ScanState → Char → Option (List Token × ScanState)
  | .idle, c => scanIdle c
  | .inStr acc, c =>
    if c = '"' then some ([.str (String.ofList acc)], .idle)
    else if c = '\\' then some ([], .inEscape acc)
    else if c.toNat < 32 then none
    else some ([], .inStr (acc ++ [c]))
  | .inEscape acc, c =>
    if c = 'u' then some ([], .inHex acc [])
    else (unescape c).map fun d => ([], .inStr (acc ++ [d]))
  | .inHex acc digits, c =>
    if digits.length < 3 then some ([], .inHex acc (digits ++ [c]))
    else (hexChar (digits ++ [c])).map fun d => ([], .inStr (acc ++ [d]))
  | .inNum acc, c =>
    if c.isDigit then some ([], .inNum (acc ++ [c]))
    else do
      let t ← numToken acc
      let (ts, st) ← scanIdle c
      some (t :: ts, st)
  | .inWord acc, c =>
    if c.isAlpha then some ([], .inWord (acc ++ [c]))
    else do
      let t ← wordToken acc
      let (ts, st) ← scanIdle c
      some (t :: ts, st)

/-- The tokens of a text. -/
def scan : ScanState → List Char → Option (List Token)
  | .idle, [] => some []
  | .inNum acc, [] => (numToken acc).map fun t => [t]
  | .inWord acc, [] => (wordToken acc).map fun t => [t]
  | _, [] => none
  | st, c :: cs => do
    let (ts, st) ← scanStep st c
    let ts' ← scan st cs
    some (ts ++ ts')

/-! ## Parsing -/

mutual

/-- The value at the front of the tokens, with at most `levels` nested arrays and objects. -/
def parseValue : ℕ → ℕ → List Token → Option (Json × List Token)
  | 0, _, _ => none
  | _ + 1, _, .null :: ts => some (.null, ts)
  | _ + 1, _, .bool b :: ts => some (.bool b, ts)
  | _ + 1, _, .num n :: ts => some (.num n, ts)
  | _ + 1, _, .str s :: ts => some (.str s, ts)
  | _ + 1, _ + 1, .lBracket :: .rBracket :: ts => some (.arr [], ts)
  | fuel + 1, levels + 1, .lBracket :: ts => do
    let (e, ts) ← parseValue fuel levels ts
    let (es, ts) ← parseElems fuel levels ts
    some (.arr (e :: es), ts)
  | _ + 1, _ + 1, .lBrace :: .rBrace :: ts => some (.obj [], ts)
  | fuel + 1, levels + 1, .lBrace :: .str k :: .colon :: ts => do
    let (e, ts) ← parseValue fuel levels ts
    let (ms, ts) ← parseMembers fuel levels ts
    some (.obj ((k, e) :: ms), ts)
  | _ + 1, _, _ => none

def parseElems : ℕ → ℕ → List Token → Option (List Json × List Token)
  | fuel + 1, levels, .comma :: ts => do
    let (e, ts) ← parseValue fuel levels ts
    let (es, ts) ← parseElems fuel levels ts
    some (e :: es, ts)
  | _ + 1, _, .rBracket :: ts => some ([], ts)
  | _, _, _ => none

def parseMembers : ℕ → ℕ → List Token → Option (List (String × Json) × List Token)
  | fuel + 1, levels, .comma :: .str k :: .colon :: ts => do
    let (e, ts) ← parseValue fuel levels ts
    let (ms, ts) ← parseMembers fuel levels ts
    some ((k, e) :: ms, ts)
  | _ + 1, _, .rBrace :: ts => some ([], ts)
  | _, _, _ => none

end

/-- The value of a text that has at most `levels` nested arrays and objects. -/
def parse (levels : ℕ) (text : List Char) : Option Json := do
  let ts ← scan .idle text
  match parseValue ts.length levels ts with
  | some (j, []) => some j
  | _ => none

/-! ## Scanning a printed text -/

/-- Scanning the text gives the tokens, whatever follows. -/
def Free (text : List Char) (ts : List Token) : Prop :=
  ∀ rest, scan .idle (text ++ rest) = (scan .idle rest).map (ts ++ ·)

/-- The text is at its end or goes on with a character that ends a number or a word. -/
def Ends (text : List Char) : Prop := ∀ c ∈ text.head?, c.isAlpha = false ∧ c.isDigit = false

/-- Scanning the text gives the tokens, if what follows ends a number or a word. -/
def Scans (text : List Char) (ts : List Token) : Prop :=
  ∀ rest, Ends rest → scan .idle (text ++ rest) = (scan .idle rest).map (ts ++ ·)

/-- A text after which nothing has to follow, and which can follow a number or a word. -/
def Closed (text : List Char) (ts : List Token) : Prop := Free text ts ∧ ∀ rest, Ends (text ++ rest)

theorem Free.scans {text : List Char} {ts : List Token} (h : Free text ts) : Scans text ts :=
  fun rest _ => h rest

theorem Free.append {text text' : List Char} {ts ts' : List Token} (h : Free text ts)
    (h' : Free text' ts') : Free (text ++ text') (ts ++ ts') := by
  intro rest
  rw [List.append_assoc, h, h', Option.map_map]
  congr 1
  funext us
  simp

theorem Scans.append {text text' : List Char} {ts ts' : List Token} (h : Scans text ts)
    (h' : Closed text' ts') : Free (text ++ text') (ts ++ ts') := by
  intro rest
  rw [List.append_assoc, h _ (h'.2 rest), h'.1, Option.map_map]
  congr 1
  funext us
  simp

theorem scan_cons (st : ScanState) (c : Char) (cs : List Char) :
    scan st (c :: cs) = (scanStep st c).bind fun out => (scan out.2 cs).map (out.1 ++ ·) := by
  have h : scan st (c :: cs) = (do
      let (ts, st) ← scanStep st c
      let ts' ← scan st cs
      some (ts ++ ts')) := by
    cases st <;> rfl
  rw [h]
  cases scanStep st c with
  | none => rfl
  | some out => cases hrest : scan out.2 cs <;> simp [hrest]

/-- A character that is a token by itself. -/
theorem free_char {c : Char} {ts : List Token} (h : scanIdle c = some (ts, .idle)) : Free [c] ts := by
  intro rest
  rw [List.singleton_append, scan_cons, scanStep, h, Option.bind_some]

theorem free_comma : Free [','] [.comma] := free_char rfl

theorem free_colon : Free [':'] [.colon] := free_char rfl

theorem free_lBracket : Free ['['] [.lBracket] := free_char rfl

theorem free_rBracket : Free [']'] [.rBracket] := free_char rfl

theorem free_lBrace : Free ['{'] [.lBrace] := free_char rfl

theorem free_rBrace : Free ['}'] [.rBrace] := free_char rfl

/-- Blanks between tokens. -/
def Blank (text : List Char) : Prop := ∀ c ∈ text, c = ' ' ∨ c = '\n' ∨ c = '\r' ∨ c = '\t'

theorem free_blank {text : List Char} (h : Blank text) : Free text [] := by
  induction text with
  | nil => intro rest; simp
  | cons c text ih =>
    exact (free_char (if_pos (h c (by simp)))).append (ih fun d hd => h d (by simp [hd]))

/-! ### Strings -/

theorem hexChar_hexDigit : ∀ n < 32,
    hexChar ['0', '0', hexDigit (n / 16), hexDigit (n % 16)] = some (Char.ofNat n) := by
  decide

/-- The escape of a character is read as this character. -/
theorem scan_escape (c : Char) (acc rest : List Char) :
    scan (.inStr acc) (escape c ++ rest) = scan (.inStr (acc ++ [c])) rest := by
  have two : ∀ d : Char, d ≠ 'u' → unescape d = some c →
      scan (.inStr acc) (['\\', d] ++ rest) = scan (.inStr (acc ++ [c])) rest := by
    intro d hd hc
    simp [scan_cons, scanStep, hd, hc, Function.comp_def]
  unfold escape
  split_ifs with h1 h2 h3 h4 h5 h6 h7 h8
  · exact two _ (by decide) (by rw [h1]; rfl)
  · exact two _ (by decide) (by rw [h2]; rfl)
  · exact two _ (by decide) (by rw [h3]; rfl)
  · exact two _ (by decide) (by rw [h4]; rfl)
  · exact two _ (by decide) (by rw [h5]; rfl)
  · exact two _ (by decide) (by rw [h6]; rfl)
  · exact two _ (by decide) (by rw [h7]; rfl)
  · have hc : hexChar ['0', '0', hexDigit (c.toNat / 16), hexDigit (c.toNat % 16)] = some c := by
      rw [hexChar_hexDigit _ h8, Char.ofNat_toNat]
    simp [scan_cons, scanStep, hc, Function.comp_def]
  · simp [scan_cons, scanStep, h1, h2, h8]

theorem free_quote (s : String) : Free (quote s) [.str s] := by
  have loop : ∀ (cs acc rest : List Char),
      scan (.inStr acc) (cs.flatMap escape ++ ('"' :: rest)) =
        (scan .idle rest).map (Token.str (String.ofList (acc ++ cs)) :: ·) := by
    intro cs
    induction cs with
    | nil =>
      intro acc rest
      simp [scan_cons, scanStep]
    | cons c cs ih =>
      intro acc rest
      rw [List.flatMap_cons, List.append_assoc, scan_escape, ih, List.append_assoc]
      rfl
  intro rest
  have hopen : scan .idle ('"' :: (s.toList.flatMap escape ++ ('"' :: rest))) =
      scan (.inStr []) (s.toList.flatMap escape ++ ('"' :: rest)) := by
    rw [scan_cons]
    simp [scanStep, scanIdle]
  rw [quote, List.cons_append, List.append_assoc, List.singleton_append, hopen, loop, List.nil_append,
    String.ofList_toList]
  rfl

/-! ### Numbers and words -/

theorem scanIdle_digit {c : Char} (h : c.isDigit) : scanIdle c = some ([], .inNum [c]) := by
  have hne : ∀ d : Char, d.isDigit = false → c ≠ d := by
    rintro d hd rfl
    rw [h] at hd
    cases hd
  rw [scanIdle, if_neg, if_neg (hne _ (by decide)), if_neg (hne _ (by decide)),
    if_neg (hne _ (by decide)), if_neg (hne _ (by decide)), if_neg (hne _ (by decide)),
    if_neg (hne _ (by decide)), if_neg (hne _ (by decide)), if_pos h]
  rintro (rfl | rfl | rfl | rfl) <;> exact absurd h (by decide)

/-- Reading the rest of a number or a word: `st` is the state after some of its characters, which are
those of `cls`, and `tok` the token at its end. -/
theorem scan_pending {st : List Char → ScanState} {cls : Char → Bool} {tok : List Char → Option Token}
    (hin : ∀ acc c, cls c = true → scanStep (st acc) c = some ([], st (acc ++ [c])))
    (hout : ∀ acc c, cls c = false → scanStep (st acc) c =
      (tok acc).bind fun t => (scanIdle c).map fun out => (t :: out.1, out.2))
    (hend : ∀ acc, scan (st acc) [] = (tok acc).map fun t => [t]) {t : Token} {rest : List Char}
    (hrest : ∀ c ∈ rest.head?, cls c = false) (cs acc : List Char) (hcs : ∀ c ∈ cs, cls c = true)
    (ht : tok (acc ++ cs) = some t) :
    scan (st acc) (cs ++ rest) = (scan .idle rest).map (t :: ·) := by
  induction cs generalizing acc with
  | nil =>
    rw [List.append_nil] at ht
    cases rest with
    | nil => rw [List.nil_append, hend, ht]; rfl
    | cons c rest =>
      rw [List.nil_append, scan_cons, scan_cons, hout acc c (hrest c rfl), ht, scanStep]
      cases scanIdle c with
      | none => rfl
      | some out => cases hscan : scan out.2 rest <;> simp [hscan]
  | cons c cs ih =>
    rw [List.cons_append, scan_cons, hin acc c (hcs c (by simp)), Option.bind_some,
      ih (acc ++ [c]) (fun d hd => hcs d (by simp [hd])) (by simpa using ht)]
    cases scan .idle rest <;> rfl

theorem scans_num (n : ℕ) : Scans (Nat.toDigits 10 n) [.num n] := by
  have hdigits : ∀ c ∈ Nat.toDigits 10 n, c.isDigit = true := fun c hc =>
    Nat.isDigit_of_mem_toDigits (by decide) (by decide) hc
  have htoken : numToken (Nat.toDigits 10 n) = some (.num n) := by
    unfold numToken
    simp
  intro rest hends
  cases hcs : Nat.toDigits 10 n with
  | nil => exact absurd hcs Nat.toDigits_ne_nil
  | cons c cs =>
    rw [hcs] at hdigits htoken
    have hrest := @scan_pending .inNum Char.isDigit numToken
      (fun acc c hc => if_pos hc)
      (fun acc c hc => by
        rw [scanStep, if_neg (by simp [hc])]
        cases numToken acc <;> cases scanIdle c <;> rfl)
      (fun acc => rfl) (.num n) rest (fun c hc => (hends c hc).2) cs [c]
      (fun d hd => hdigits d (by simp [hd])) htoken
    rw [List.cons_append, scan_cons, scanStep, scanIdle_digit (hdigits c (by simp)), Option.bind_some,
      hrest]
    cases scan .idle rest <;> rfl

theorem scans_word {word : List Char} {t : Token} (hne : word ≠ [])
    (hword : ∀ c ∈ word, c.isAlpha = true ∧ scanIdle c = some ([], .inWord [c]))
    (ht : wordToken word = some t) : Scans word [t] := by
  intro rest hends
  cases word with
  | nil => exact absurd rfl hne
  | cons c cs =>
    have hrest := @scan_pending .inWord Char.isAlpha wordToken
      (fun acc c hc => if_pos hc)
      (fun acc c hc => by
        rw [scanStep, if_neg (by simp [hc])]
        cases wordToken acc <;> cases scanIdle c <;> rfl)
      (fun acc => rfl) t rest (fun c hc => (hends c hc).1) cs [c] (fun d hd => (hword d (by simp [hd])).1) ht
    rw [List.cons_append, scan_cons, scanStep, (hword c (by simp)).2, Option.bind_some, hrest]
    cases scan .idle rest <;> rfl

theorem scans_null : Scans ['n', 'u', 'l', 'l'] [.null] := by
  refine scans_word (by simp) (fun c hc => ?_) rfl
  simp only [List.mem_cons, List.not_mem_nil, or_false] at hc
  rcases hc with rfl | rfl | rfl | rfl <;> exact ⟨rfl, rfl⟩

theorem scans_true : Scans ['t', 'r', 'u', 'e'] [.bool true] := by
  refine scans_word (by simp) (fun c hc => ?_) rfl
  simp only [List.mem_cons, List.not_mem_nil, or_false] at hc
  rcases hc with rfl | rfl | rfl | rfl <;> exact ⟨rfl, rfl⟩

theorem scans_false : Scans ['f', 'a', 'l', 's', 'e'] [.bool false] := by
  refine scans_word (by simp) (fun c hc => ?_) rfl
  simp only [List.mem_cons, List.not_mem_nil, or_false] at hc
  rcases hc with rfl | rfl | rfl | rfl | rfl <;> exact ⟨rfl, rfl⟩

/-! ### Values -/

theorem Ends.cons {c : Char} (h : c.isAlpha = false ∧ c.isDigit = false) (rest : List Char) :
    Ends (c :: rest) := by
  intro d hd
  obtain rfl : c = d := by simpa using hd
  exact h

/-- A comma in front, and blanks after it. -/
theorem closed_comma {blank text : List Char} {ts : List Token} (hb : Blank blank) (h : Free text ts) :
    Closed (',' :: (blank ++ text)) (.comma :: ts) :=
  ⟨(free_comma).append ((free_blank hb).append h),
    fun _ => Ends.cons (by decide) _⟩

/-- Blanks in front of a closing bracket. -/
theorem closed_bracket {blank : List Char} {c : Char} {t : Token} (hb : Blank blank)
    (hc : scanIdle c = some ([t], .idle)) (hend : c.isAlpha = false ∧ c.isDigit = false) :
    Closed (blank ++ [c]) [t] := by
  refine ⟨(free_blank hb).append (free_char hc), fun rest => ?_⟩
  cases blank with
  | nil => exact Ends.cons hend rest
  | cons d blank =>
    refine Ends.cons ?_ _
    rcases hb d (by simp) with rfl | rfl | rfl | rfl <;> decide

/-- The style puts nothing but blanks between the tokens. -/
structure Style.Blank (st : Style) : Prop where
  newline : ∀ level, Json.Blank (st.newline level)
  colon : Json.Blank st.colon

theorem blank_compact : compact.Blank := ⟨fun _ => nofun, nofun⟩

theorem blank_pretty : pretty.Blank := by
  refine ⟨fun level c hc => ?_, fun c hc => Or.inl (List.mem_singleton.1 hc)⟩
  rcases List.mem_cons.1 hc with rfl | hc
  · exact Or.inr (Or.inl rfl)
  · exact Or.inl (List.eq_of_mem_replicate hc)

section Render

variable {st : Style}

/-- A member of an object, from its key on. -/
theorem free_member (hst : st.Blank) (k : String) {text : List Char} {ts : List Token}
    (h : Free text ts) :
    Free (quote k ++ (':' :: (st.colon ++ text))) (.str k :: .colon :: ts) :=
  (free_quote k).append ((free_colon).append
    ((free_blank hst.colon).append h))

mutual

/-- **Scanning a printed value** gives its tokens. -/
theorem scans_render (hst : st.Blank) : ∀ (j : Json) (level : ℕ),
    Scans (render st level j) j.tokens
  | .null, _ => scans_null
  | .bool true, _ => scans_true
  | .bool false, _ => scans_false
  | .num n, _ => scans_num n
  | .str s, _ => (free_quote s).scans
  | .arr [], _ => by
    have h := (free_lBracket).append
      (free_rBracket)
    exact h.scans
  | .arr (e :: es), level => by
    have hclose : Closed (st.newline level ++ [']']) [.rBracket] :=
      closed_bracket (hst.newline level) rfl (by decide)
    have hrest := closed_renderElems hst es (level + 1) hclose
    have h := (free_lBracket).append
      ((free_blank (hst.newline (level + 1))).append
        ((scans_render hst e (level + 1)).append hrest))
    unfold render tokens
    simpa using h.scans
  | .obj ms, level => (free_render_obj hst ms level).scans

theorem free_render_obj (hst : st.Blank) : ∀ (ms : List (String × Json)) (level : ℕ),
    Free (render st level (.obj ms)) (Json.obj ms).tokens
  | [], _ => (free_lBrace).append free_rBrace
  | (k, e) :: ms, level => by
    have hclose : Closed (st.newline level ++ ['}']) [.rBrace] :=
      closed_bracket (hst.newline level) rfl (by decide)
    have hrest := closed_renderMembers hst ms (level + 1) hclose
    have h := (free_lBrace).append
      ((free_blank (hst.newline (level + 1))).append
        (free_member hst k ((scans_render hst e (level + 1)).append hrest)))
    unfold render tokens
    simpa using h

theorem closed_renderElems (hst : st.Blank) : ∀ (es : List Json) (level : ℕ) {text : List Char}
    {ts : List Token}, Closed text ts →
      Closed (renderElems st level es ++ text) (elemTokens es ++ ts)
  | [], _, _, _, h => h
  | e :: es, level, _, _, h => by
    have hrest := closed_renderElems hst es level h
    have h := closed_comma (hst.newline level) ((scans_render hst e level).append hrest)
    unfold renderElems elemTokens
    simpa using h

theorem closed_renderMembers (hst : st.Blank) : ∀ (ms : List (String × Json)) (level : ℕ)
    {text : List Char} {ts : List Token}, Closed text ts →
      Closed (renderMembers st level ms ++ text) (memberTokens ms ++ ts)
  | [], _, _, _, h => h
  | (k, e) :: ms, level, _, _, h => by
    have hrest := closed_renderMembers hst ms level h
    have h := closed_comma (hst.newline level)
      (free_member hst k ((scans_render hst e level).append hrest))
    unfold renderMembers memberTokens
    simpa using h

end

theorem scan_render (hst : st.Blank) (j : Json) : scan .idle (render st 0 j) = some j.tokens := by
  have h := scans_render hst j 0 [] nofun
  rwa [List.append_nil, scan, Option.map_some, List.append_nil] at h

end Render

/-! ## Parsing the tokens of a value -/

theorem head_tokens (j : Json) (rest ts : List Token) : j.tokens ++ rest ≠ .rBracket :: ts := by
  cases j with
  | arr es => cases es <;> exact nofun
  | obj ms => rcases ms with _ | ⟨⟨k, e⟩, ms⟩ <;> exact nofun
  | null => exact nofun
  | bool b => exact nofun
  | num n => exact nofun
  | str s => exact nofun

/-- An array that is not empty. -/
theorem parseValue_lBracket {ts : List Token} (h : ∀ ts', ts ≠ .rBracket :: ts') (fuel levels : ℕ) :
    parseValue (fuel + 1) (levels + 1) (.lBracket :: ts) = (parseValue fuel levels ts).bind fun e =>
      (parseElems fuel levels e.2).bind fun es => some (.arr (e.1 :: es.1), es.2) := by
  rcases ts with _ | ⟨t, ts⟩
  · rfl
  · cases t with
    | rBracket => exact absurd rfl (h ts)
    | _ => rfl

theorem parseValue_zero_lBracket (fuel : ℕ) (ts : List Token) :
    parseValue (fuel + 1) 0 (.lBracket :: ts) = none := by
  rcases ts with _ | ⟨t, ts⟩
  · rfl
  · cases t <;> rfl

mutual

/-- **Parsing the tokens of a value**: the value itself, unless it is nested too deeply. -/
theorem parseValue_tokens : ∀ (j : Json) {fuel levels : ℕ} (rest : List Token),
    j.tokens.length ≤ fuel →
      parseValue fuel levels (j.tokens ++ rest) = if j.depth ≤ levels then some (j, rest) else none
  | .null, fuel + 1, _, _, _ => (if_pos (Nat.zero_le _)).symm
  | .bool b, fuel + 1, _, _, _ => (if_pos (Nat.zero_le _)).symm
  | .num n, fuel + 1, _, _, _ => (if_pos (Nat.zero_le _)).symm
  | .str s, fuel + 1, _, _, _ => (if_pos (Nat.zero_le _)).symm
  | .arr [], fuel + 1, 0, rest, _ => rfl
  | .arr [], fuel + 1, levels + 1, rest, _ => (if_pos (by rw [depth, depthElems]; omega)).symm
  | .arr (e :: es), fuel + 1, 0, rest, _ => by
    rw [tokens, if_neg (by rw [depth]; omega)]
    exact parseValue_zero_lBracket _ _
  | .arr (e :: es), fuel + 1, levels + 1, rest, h => by
    rw [tokens, List.length_cons, List.length_append, List.length_append, List.length_singleton] at h
    rw [tokens, List.cons_append, List.append_assoc, List.append_assoc, List.singleton_append,
      parseValue_lBracket (head_tokens e _), parseValue_tokens e _ (by omega), depth, depthElems]
    by_cases he : e.depth ≤ levels
    · rw [if_pos he, Option.bind_some, parseElems_tokens es rest (by omega)]
      by_cases hes : depthElems es ≤ levels
      · rw [if_pos hes, if_pos (by omega)]
        rfl
      · rw [if_neg hes, if_neg (by omega)]
        rfl
    · rw [if_neg he, if_neg (by omega)]
      rfl
  | .obj [], fuel + 1, 0, rest, _ => rfl
  | .obj [], fuel + 1, levels + 1, rest, _ => (if_pos (by rw [depth, depthMembers]; omega)).symm
  | .obj ((k, e) :: ms), fuel + 1, 0, rest, _ => by
    rw [tokens, if_neg (by rw [depth]; omega)]
    rfl
  | .obj ((k, e) :: ms), fuel + 1, levels + 1, rest, h => by
    rw [tokens, List.length_cons, List.length_cons, List.length_cons, List.length_append,
      List.length_append, List.length_singleton] at h
    have hparse : ∀ ts, parseValue (fuel + 1) (levels + 1) (.lBrace :: .str k :: .colon :: ts) =
        (parseValue fuel levels ts).bind fun e =>
          (parseMembers fuel levels e.2).bind fun ms => some (.obj ((k, e.1) :: ms.1), ms.2) :=
      fun ts => rfl
    rw [tokens, List.cons_append, List.cons_append, List.cons_append, List.append_assoc,
      List.append_assoc, List.singleton_append, hparse, parseValue_tokens e _ (by omega), depth,
      depthMembers]
    by_cases he : e.depth ≤ levels
    · rw [if_pos he, Option.bind_some, parseMembers_tokens ms rest (by omega)]
      by_cases hms : depthMembers ms ≤ levels
      · rw [if_pos hms, if_pos (by omega)]
        rfl
      · rw [if_neg hms, if_neg (by omega)]
        rfl
    · rw [if_neg he, if_neg (by omega)]
      rfl

theorem parseElems_tokens : ∀ (es : List Json) {fuel levels : ℕ} (rest : List Token),
    (elemTokens es).length + 1 ≤ fuel →
      parseElems fuel levels (elemTokens es ++ .rBracket :: rest) =
        if depthElems es ≤ levels then some (es, rest) else none
  | [], fuel + 1, _, _, _ => (if_pos (Nat.zero_le _)).symm
  | e :: es, fuel + 1, levels, rest, h => by
    rw [elemTokens, List.length_cons, List.length_append] at h
    have hparse : ∀ ts, parseElems (fuel + 1) levels (.comma :: ts) =
        (parseValue fuel levels ts).bind fun e =>
          (parseElems fuel levels e.2).bind fun es => some (e.1 :: es.1, es.2) := fun ts => rfl
    rw [elemTokens, List.cons_append, List.append_assoc, hparse, parseValue_tokens e _ (by omega),
      depthElems]
    by_cases he : e.depth ≤ levels
    · rw [if_pos he, Option.bind_some, parseElems_tokens es rest (by omega)]
      by_cases hes : depthElems es ≤ levels
      · rw [if_pos hes, if_pos (by omega)]
        rfl
      · rw [if_neg hes, if_neg (by omega)]
        rfl
    · rw [if_neg he, if_neg (by omega)]
      rfl

theorem parseMembers_tokens : ∀ (ms : List (String × Json)) {fuel levels : ℕ} (rest : List Token),
    (memberTokens ms).length + 1 ≤ fuel →
      parseMembers fuel levels (memberTokens ms ++ .rBrace :: rest) =
        if depthMembers ms ≤ levels then some (ms, rest) else none
  | [], fuel + 1, _, _, _ => (if_pos (Nat.zero_le _)).symm
  | (k, e) :: ms, fuel + 1, levels, rest, h => by
    rw [memberTokens, List.length_cons, List.length_cons, List.length_cons, List.length_append] at h
    have hparse : ∀ ts, parseMembers (fuel + 1) levels (.comma :: .str k :: .colon :: ts) =
        (parseValue fuel levels ts).bind fun e =>
          (parseMembers fuel levels e.2).bind fun ms => some ((k, e.1) :: ms.1, ms.2) := fun ts => rfl
    rw [memberTokens, List.cons_append, List.cons_append, List.cons_append, List.append_assoc, hparse,
      parseValue_tokens e _ (by omega), depthMembers]
    by_cases he : e.depth ≤ levels
    · rw [if_pos he, Option.bind_some, parseMembers_tokens ms rest (by omega)]
      by_cases hms : depthMembers ms ≤ levels
      · rw [if_pos hms, if_pos (by omega)]
        rfl
      · rw [if_neg hms, if_neg (by omega)]
        rfl
    · rw [if_neg he, if_neg (by omega)]
      rfl

end

/-- **Printing and parsing**: the value is read back if it is not nested too deeply, and refused
otherwise. -/
theorem parse_render {st : Style} (hst : st.Blank) (levels : ℕ) (j : Json) :
    parse levels (render st 0 j) = if j.depth ≤ levels then some j else none := by
  have h := @parseValue_tokens j j.tokens.length levels [] le_rfl
  rw [List.append_nil] at h
  rw [parse, scan_render hst]
  apply (Option.bind_some ..).trans
  simp only [h]
  split_ifs <;> rfl

/-- **The text of an object** does not go on to the text of another one. -/
theorem eq_nil_of_render_obj_append {st : Style} (hst : st.Blank) {ms ms' : List (String × Json)}
    {text : List Char} (h : render st 0 (.obj ms) ++ text = render st 0 (.obj ms')) : text = [] := by
  have hscan := free_render_obj hst ms 0 text
  rw [h, scan_render hst] at hscan
  obtain ⟨ts, -, htokens⟩ := Option.map_eq_some_iff.1 hscan.symm
  -- the tokens of the longer text begin with a whole value, so they are those of that value
  have hparse := @parseValue_tokens (.obj ms') (Json.obj ms').tokens.length (Json.obj ms').depth [] le_rfl
  have hprefix := @parseValue_tokens (.obj ms) (Json.obj ms').tokens.length (Json.obj ms').depth ts
    (by rw [← htokens, List.length_append]; omega)
  rw [List.append_nil, if_pos le_rfl] at hparse
  rw [htokens, hparse] at hprefix
  split_ifs at hprefix with hdepth
  obtain ⟨hobj, -⟩ := Prod.mk.inj (Option.some.inj hprefix)
  rw [hobj] at h
  exact List.append_right_eq_self.1 h

/-- **After a value** no other one is read. -/
theorem parse_render_append {st : Style} (hst : st.Blank) (levels : ℕ) (j : Json) (text : List Char) :
    parse levels (render st 0 j ++ '{' :: text) = none := by
  have hscan := scans_render hst j 0 ('{' :: text) (Ends.cons (by decide) text)
  have hbrace : scan .idle ('{' :: text) = (scan .idle text).map ([.lBrace] ++ ·) := free_lBrace text
  rw [hbrace, Option.map_map] at hscan
  rw [parse, hscan]
  cases scan .idle text with
  | none => rfl
  | some ts =>
    have hvalue := @parseValue_tokens j (j.tokens ++ .lBrace :: ts).length levels (.lBrace :: ts)
      (by rw [List.length_append]; omega)
    apply (Option.bind_some ..).trans
    simp only [Function.comp_apply, List.singleton_append, hvalue]
    split_ifs <;> rfl

mutual

theorem depth_le_length_tokens : ∀ j : Json, j.depth ≤ j.tokens.length
  | .null => Nat.zero_le _
  | .bool _ => Nat.zero_le _
  | .num _ => Nat.zero_le _
  | .str _ => Nat.zero_le _
  | .arr [] => by decide
  | .arr (e :: es) => by
    have he := depth_le_length_tokens e
    have hes := depthElems_le_length es
    unfold depth depthElems tokens
    rw [List.length_cons, List.length_append, List.length_append]
    omega
  | .obj [] => by decide
  | .obj ((k, e) :: ms) => by
    have he := depth_le_length_tokens e
    have hms := depthMembers_le_length ms
    rw [depth, depthMembers, tokens, List.length_cons, List.length_cons, List.length_cons,
      List.length_append, List.length_append]
    omega

theorem depthElems_le_length : ∀ es : List Json, depthElems es ≤ (elemTokens es).length
  | [] => Nat.zero_le _
  | e :: es => by
    have he := depth_le_length_tokens e
    have hes := depthElems_le_length es
    unfold depthElems elemTokens
    rw [List.length_cons, List.length_append]
    omega

theorem depthMembers_le_length : ∀ ms : List (String × Json),
    depthMembers ms ≤ (memberTokens ms).length
  | [] => Nat.zero_le _
  | (k, e) :: ms => by
    have he := depth_le_length_tokens e
    have hms := depthMembers_le_length ms
    rw [depthMembers, memberTokens, List.length_cons, List.length_cons, List.length_cons,
      List.length_append]
    omega

end

/-- The value of a text, however deeply nested. -/
def parseAny (text : List Char) : Option Json := do
  let ts ← scan .idle text
  parse ts.length text

theorem parseAny_render {st : Style} (hst : st.Blank) (j : Json) :
    parseAny (render st 0 j) = some j := by
  rw [parseAny, scan_render hst]
  apply (Option.bind_some ..).trans
  rw [parse_render hst, if_pos (depth_le_length_tokens j)]

theorem parseAny_render_append {st : Style} (hst : st.Blank) (j : Json) (text : List Char) :
    parseAny (render st 0 j ++ '{' :: text) = none := by
  rw [parseAny]
  simp only [parse_render_append hst]
  exact Option.bind_fun_none _

/-- Different values have different texts. -/
theorem render_injective {st : Style} (hst : st.Blank) : Function.Injective (render st 0) := by
  intro j j' h
  have hj := parse_render hst (max j.depth j'.depth) j
  rw [h, parse_render hst, if_pos (by omega), if_pos (by omega)] at hj
  exact (Option.some.inj hj).symm

/-! ## Lines -/

/-- The text of an object is in braces. -/
theorem exists_render_obj (st : Style) (level : ℕ) (ms : List (String × Json)) :
    ∃ inner, render st level (.obj ms) = '{' :: (inner ++ ['}']) := by
  rcases ms with _ | ⟨⟨k, e⟩, ms⟩
  · exact ⟨[], rfl⟩
  · refine ⟨st.newline (level + 1) ++ (quote k ++ (':' :: (st.colon ++ (render st (level + 1) e ++
      (renderMembers st (level + 1) ms ++ st.newline level))))), ?_⟩
    simp only [render, List.append_assoc, List.cons_append]

theorem newline_notMem_escape (c : Char) : '\n' ∉ escape c := by
  have hdigit : ∀ n < 16, hexDigit n ≠ '\n' := by decide
  have hcode : c.toNat < 32 → c.toNat / 16 < 16 ∧ c.toNat % 16 < 16 := by omega
  unfold escape
  split_ifs with h1 h2 h3 h4 h5 h6 h7 h8
  · decide
  · decide
  · decide
  · decide
  · decide
  · decide
  · decide
  · simp [(hdigit _ (hcode h8).1).symm, (hdigit _ (hcode h8).2).symm]
  · simpa using Ne.symm h5

theorem newline_notMem_quote (s : String) : '\n' ∉ quote s := by
  have hchars : '\n' ∉ s.toList.flatMap escape := by
    intro h
    obtain ⟨c, -, hc⟩ := List.mem_flatMap.1 h
    exact newline_notMem_escape c hc
  simp [quote, hchars]

theorem newline_notMem_digits (n : ℕ) : '\n' ∉ Nat.toDigits 10 n := fun h =>
  absurd (Nat.isDigit_of_mem_toDigits (by decide) (by decide) h) (by decide)

mutual

/-- The compact text of a value is one line. -/
theorem newline_notMem_render : ∀ (j : Json) (level : ℕ), '\n' ∉ render compact level j
  | .null, _ => by simp [render]
  | .bool true, _ => by simp [render]
  | .bool false, _ => by simp [render]
  | .num n, _ => by
    unfold render
    exact newline_notMem_digits n
  | .str s, _ => by
    unfold render
    exact newline_notMem_quote s
  | .arr [], _ => by simp [render]
  | .arr (e :: es), level => by
    simpa [render, compact] using ⟨newline_notMem_render e _, newline_notMem_renderElems es _⟩
  | .obj [], _ => by simp [render]
  | .obj ((k, e) :: ms), level => by
    simpa [render, compact] using
      ⟨newline_notMem_quote k, newline_notMem_render e _, newline_notMem_renderMembers ms _⟩
termination_by structural j => j

theorem newline_notMem_renderElems : ∀ (es : List Json) (level : ℕ),
    '\n' ∉ renderElems compact level es
  | [], _ => by simp [renderElems]
  | e :: es, level => by
    simpa [renderElems, compact] using ⟨newline_notMem_render e _, newline_notMem_renderElems es _⟩
termination_by structural es => es

theorem newline_notMem_renderMembers : ∀ (ms : List (String × Json)) (level : ℕ),
    '\n' ∉ renderMembers compact level ms
  | [], _ => by simp [renderMembers]
  | (k, e) :: ms, level => by
    simpa [renderMembers, compact] using
      ⟨newline_notMem_quote k, newline_notMem_render e _, newline_notMem_renderMembers ms _⟩
termination_by structural ms => ms

end

end Json
