import SecureABE.Authorities.Registry

/-!
# Claims on the command line

`parse_claims` of `cli/src/main.rs`, with the parser of `i64` from the standard library.
-/

namespace SecureABE.Cli

open Rust SecureABE.Authorities

/-- The value of decimal digits. -/
def parseDigits (ds : List Char) : Option ℕ :=
  if ds.isEmpty || ds.any (fun c => !c.isDigit) then none else some (Nat.ofDigitChars 10 ds 0)

/-- `str::parse::<i64>`: an optional sign and digits, within the range of the type. -/
def parseI64 (s : List Char) : Option Int := do
  let (negative, digits) := match s with
    | '-' :: ds => (true, ds)
    | '+' :: ds => (false, ds)
    | ds => (false, ds)
  let n ← parseDigits digits
  let value : Int := if negative then -(n : Int) else n
  if -(2 ^ 63 : Int) ≤ value ∧ value < 2 ^ 63 then some value else none

/-- `key=value`. -/
def parseText (t : String) : Outcome String Claim := do
  let (k, v) ← Outcome.okOr ("--text must be key=value, got '" ++ t ++ "'") (splitOnce '=' t.toList)
  .ok (.text (String.ofList k) (String.ofList v))

/-- `key=value:max`. -/
def parseNumeric (n : String) : Outcome String Claim := do
  let malformed := "--numeric must be key=value:max, got '" ++ n ++ "'"
  let (kv, max) ← Outcome.okOr malformed (splitOnce ':' n.toList)
  let (k, v) ← Outcome.okOr malformed (splitOnce '=' kv)
  let value ← Outcome.okOr ("bad numeric value in '" ++ n ++ "'") (parseI64 v)
  let max ← Outcome.okOr ("bad numeric max in '" ++ n ++ "'") (parseI64 max)
  .ok (.numeric (String.ofList k) value max)

def parseClaims (flags texts numerics : List String) : Outcome String (List Claim) := do
  let texts ← Outcome.mapList parseText texts
  let numerics ← Outcome.mapList parseNumeric numerics
  .ok (flags.map .flag ++ texts ++ numerics)

end SecureABE.Cli
