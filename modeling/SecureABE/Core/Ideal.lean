import SecureABE.Core.Crates
import SecureABE.Foundations.JsonText
import Mathlib.NumberTheory.LucasPrimality
import Mathlib.Tactic.NormNum.Prime
import Mathlib.Tactic.ReduceModChar

/-!
# Ideal crates

Concrete instances of the crates of `Crates`, with proofs of what is assumed of them.

* `Scalar` is the scalar field of BLS12-381, and `exponents` the curve in which every group element is
  represented by its exponent.
* `boxes` is an encryption whose ciphertexts carry their key, nonce and associated data and open under
  no other.
* `serdeJson` prints and parses as `serde_json` does, with its recursion limit; `serdeJsonUnlimited` has
  none.
-/

namespace SecureABE.Core

open Rust

/-! ## The scalar field -/

/-- The order of the groups of BLS12-381. -/
abbrev scalarModulus : ℕ :=
  52435875175126190479447740508185965837690552500527637822603658699938581184513

/-- A numeral other than one is not one in the field. -/
theorem ofNat_ne_one (c : ℕ) [c.AtLeastTwo] (h : c < scalarModulus) :
    (OfNat.ofNat c : ZMod scalarModulus) ≠ 1 := by
  have hc : 2 ≤ c := Nat.AtLeastTwo.prop
  intro h1
  have h2 : ((c : ℕ) : ZMod scalarModulus) = ((1 : ℕ) : ZMod scalarModulus) := by
    rw [Nat.cast_one]
    exact h1
  rw [ZMod.natCast_eq_natCast_iff', Nat.mod_eq_of_lt h, Nat.mod_eq_of_lt (by omega)] at h2
  omega

/-- The order is prime: 7 generates the multiplicative group. -/
theorem prime_scalarModulus : scalarModulus.Prime := by
  have hfactors : scalarModulus - 1 = 2 ^ 32 * 3 * 11 * 19 * 10177 * 125527 * 859267 * 906349 ^ 2 *
      2508409 * 2529403 * 52437899 * 254760293 ^ 2 := by norm_num
  apply lucas_primality scalarModulus 7 (by norm_num only; reduce_mod_char)
  intro q hq hdvd
  have heq : ∀ r : ℕ, r.Prime → q ∣ r → q = r := fun r hr h => (Nat.prime_dvd_prime_iff_eq hq hr).1 h
  have hcases : q = 2 ∨ q = 3 ∨ q = 11 ∨ q = 19 ∨ q = 10177 ∨ q = 125527 ∨ q = 859267 ∨
      q = 906349 ∨ q = 2508409 ∨ q = 2529403 ∨ q = 52437899 ∨ q = 254760293 := by
    rw [hfactors] at hdvd
    simp only [hq.dvd_mul, or_assoc] at hdvd
    exact hdvd.imp (fun h => heq _ (by norm_num) (hq.dvd_of_dvd_pow h))
      (Or.imp (heq _ (by norm_num)) (Or.imp (heq _ (by norm_num)) (Or.imp (heq _ (by norm_num))
        (Or.imp (heq _ (by norm_num)) (Or.imp (heq _ (by norm_num)) (Or.imp (heq _ (by norm_num))
          (Or.imp (fun h => heq _ (by norm_num) (hq.dvd_of_dvd_pow h)) (Or.imp (heq _ (by norm_num))
            (Or.imp (heq _ (by norm_num)) (Or.imp (heq _ (by norm_num))
              fun h => heq _ (by norm_num) (hq.dvd_of_dvd_pow h)))))))))))
  rcases hcases with rfl | rfl | rfl | rfl | rfl | rfl | rfl | rfl | rfl | rfl | rfl | rfl <;>
    (norm_num only; reduce_mod_char; exact ofNat_ne_one _ (by norm_num))

instance : Fact scalarModulus.Prime := ⟨prime_scalarModulus⟩

/-- The scalars. -/
def Scalar : Type := ZMod scalarModulus

instance : Field Scalar := inferInstanceAs (Field (ZMod scalarModulus))

instance : DecidableEq Scalar := inferInstanceAs (DecidableEq (ZMod scalarModulus))

instance : Finite Scalar := inferInstanceAs (Finite (ZMod scalarModulus))

instance : CharP Scalar scalarModulus := inferInstanceAs (CharP (ZMod scalarModulus) scalarModulus)

/-- The least number that represents a scalar. -/
def Scalar.val (a : Scalar) : ℕ := ZMod.val (show ZMod scalarModulus from a)

theorem Scalar.val_lt (a : Scalar) : a.val < scalarModulus :=
  ZMod.val_lt (show ZMod scalarModulus from a)

theorem Scalar.natCast_val (a : Scalar) : ((a.val : ℕ) : Scalar) = a :=
  ZMod.natCast_zmod_val (show ZMod scalarModulus from a)

/-! ## Fixed-width numbers -/

/-- The lowest `k` bytes of a number, least significant first. -/
def leBytes : (k n : ℕ) → Bytes
  | 0, _ => []
  | k + 1, n => UInt8.ofNat n :: leBytes k (n / 256)

def ofLeBytes : Bytes → ℕ
  | [] => 0
  | b :: bs => b.toNat + 256 * ofLeBytes bs

theorem length_leBytes (k n : ℕ) : (leBytes k n).length = k := by
  induction k generalizing n with
  | zero => rfl
  | succ k ih => rw [leBytes, List.length_cons, ih]

theorem ofLeBytes_leBytes {k n : ℕ} (h : n < 256 ^ k) : ofLeBytes (leBytes k n) = n := by
  induction k generalizing n with
  | zero => rw [pow_zero, Nat.lt_one_iff] at h; rw [h]; rfl
  | succ k ih =>
    rw [leBytes, ofLeBytes, ih (Nat.div_lt_of_lt_mul (by rwa [pow_succ, mul_comm] at h)),
      UInt8.toNat_ofNat']
    exact Nat.mod_add_div n 256

/-- A scalar in `k` bytes. -/
def scalarBytes (k : ℕ) (a : Scalar) : ByteArr k := ⟨leBytes k a.val, length_leBytes k a.val⟩

def scalarOfBytes {k : ℕ} (b : ByteArr k) : Option Scalar :=
  if ofLeBytes b.1 < scalarModulus then some (ofLeBytes b.1 : ℕ) else none

theorem scalarOfBytes_scalarBytes {k : ℕ} (hk : 32 ≤ k) (a : Scalar) :
    scalarOfBytes (scalarBytes k a) = some a := by
  have hlt : a.val < scalarModulus := a.val_lt
  have hbound : scalarModulus < 256 ^ 32 := by norm_num
  have hval : ofLeBytes (scalarBytes k a).1 = a.val :=
    ofLeBytes_leBytes (hlt.trans (hbound.trans_le (Nat.pow_le_pow_right (by omega) hk)))
  rw [scalarOfBytes, hval, if_pos hlt, a.natCast_val]

/-! ## The curve -/

/-- A curve in which group elements are their exponents, with the given encodings. -/
@[noinline, nospecialize]
def exponentCurve {F : Type} [Field F] (debug : F → String) (encode : ∀ k, F → ByteArr k)
    (decode : ∀ k, ByteArr k → Option F) : Curve F F F F where
  g1 := 1
  g2 := 1
  pairing := LinearMap.mul F F
  g1_spans x := ⟨x, (mul_one x).symm⟩
  g2_spans x := ⟨x, (mul_one x).symm⟩
  gt_spans x := ⟨x, by simp⟩
  pairing_ne_zero := by simp
  gtDebug := debug
  g1ToCompressed := encode 48
  g1FromCompressed := decode 48
  g2ToCompressed := encode 96
  g2FromCompressed := decode 96
  scalarToBytes := encode 32
  scalarFromBytes := decode 32

/-- The curve of the exponents of BLS12-381. -/
def exponents : Curve Scalar Scalar Scalar Scalar :=
  exponentCurve (fun x => toString x.val) scalarBytes fun _ b => scalarOfBytes b

theorem readsBack_exponents : exponents.ReadsBack := by
  refine ⟨fun x => ?_, fun x => ?_, fun x => ?_⟩
  · simp only [exponents, exponentCurve]
    exact scalarOfBytes_scalarBytes (by omega) x
  · simp only [exponents, exponentCurve]
    exact scalarOfBytes_scalarBytes (by omega) x
  · simp only [exponents, exponentCurve]
    exact scalarOfBytes_scalarBytes (by omega) x

/-! ## The encryption -/

/-- What a box carries besides its message; the length of the associated data is in unary. -/
def boxHeader (key : ByteArr 32) (nonce : ByteArr 12) (aad : Bytes) : Bytes :=
  key.1 ++ nonce.1 ++ (List.replicate aad.length 1 ++ 0 :: aad)

def zeroBytes (n : ℕ) : ByteArr n := ⟨List.replicate n 0, List.length_replicate⟩

/-- Encryption by boxes. -/
def boxes : Cipher where
  hkdf ikm info := ⟨(ikm ++ info ++ List.replicate 32 0).take 32, by simp; omega⟩
  encrypt key nonce msg aad := some (boxHeader key nonce aad ++ msg)
  decrypt key nonce ciphertext aad :=
    if boxHeader key nonce aad <+: ciphertext then
      some (ciphertext.drop (boxHeader key nonce aad).length)
    else none

theorem correct_boxes : boxes.Correct where
  encrypt_isSome _ _ _ _ := rfl
  decrypt_encrypt key nonce msg aad ciphertext h := by
    obtain rfl := Option.some.inj h
    simp [boxes]

/-- The header of a box determines the key, the nonce and the associated data. -/
theorem boxHeader_inj {key key' : ByteArr 32} {nonce nonce' : ByteArr 12} {aad aad' msg : Bytes}
    (h : boxHeader key' nonce' aad' <+: boxHeader key nonce aad ++ msg) :
    (key', nonce', aad') = (key, nonce, aad) := by
  -- runs of ones of different lengths are told apart by the zero after the shorter one
  have hrun : ∀ (m n : ℕ) (x y : Bytes), List.replicate m 1 ++ 0 :: x <+: List.replicate n 1 ++ 0 :: y →
      m = n ∧ x <+: y := by
    intro m
    induction m with
    | zero =>
      intro n x y h
      cases n with
      | zero => exact ⟨rfl, by simpa using h⟩
      | succ n => simp [List.replicate_succ] at h
    | succ m ih =>
      intro n x y h
      cases n with
      | zero => simp [List.replicate_succ] at h
      | succ n =>
        simp only [List.replicate_succ, List.cons_append, List.cons_prefix_cons, true_and] at h
        obtain ⟨rfl, hxy⟩ := ih n x y h
        exact ⟨rfl, hxy⟩
  -- the key and the nonce have fixed lengths
  have hfixed : ∀ {n : ℕ} (a b : ByteArr n) (x y : Bytes), a.1 ++ x <+: b.1 ++ y → a = b ∧ x <+: y := by
    intro n a b x y h
    have hab : a.1 = b.1 := by
      have ha := (List.prefix_append a.1 x).trans h
      have hb := List.prefix_append b.1 y
      exact (List.prefix_of_prefix_length_le ha hb (by rw [a.2, b.2])).eq_of_length (by rw [a.2, b.2])
    rw [hab] at h
    exact ⟨Subtype.ext hab, (List.prefix_append_right_inj b.1).1 h⟩
  simp only [boxHeader, List.append_assoc] at h
  obtain ⟨hkey, h⟩ := hfixed key' key _ _ h
  obtain ⟨hnonce, h⟩ := hfixed nonce' nonce _ _ h
  rw [List.cons_append] at h
  obtain ⟨hlen, h⟩ := hrun _ _ _ _ h
  have haad : aad' = aad :=
    (List.prefix_of_prefix_length_le h (List.prefix_append aad msg) hlen.le).eq_of_length hlen
  rw [hkey, hnonce, haad]

theorem binding_boxes : boxes.Binding where
  decrypt_eq_none key nonce msg aad ciphertext h key' nonce' aad' hne := by
    obtain rfl := Option.some.inj h
    simp only [boxes]
    exact if_neg fun hopen => hne (boxHeader_inj hopen)

/-- Boxes under keys that are the numbers written in the key material. -/
def numberBoxes : Cipher :=
  { boxes with
    hkdf := fun ikm _ =>
      let n := ((fromUtf8 ikm).map fun s => Nat.ofDigitChars 10 s.toList 0).getD 0
      ⟨leBytes 32 n, length_leBytes 32 n⟩ }

theorem correct_numberBoxes : numberBoxes.Correct := ⟨correct_boxes.1, correct_boxes.2⟩

theorem binding_numberBoxes : numberBoxes.Binding := ⟨binding_boxes.1⟩

/-! ## The text codecs -/

def hexEncode (b : Bytes) : String :=
  String.ofList (b.flatMap fun x => [Json.hexDigit (x.toNat / 16), Json.hexDigit (x.toNat % 16)])

/-- The bytes of pairs of hexadecimal digits. -/
def hexPairs : List Char → Option Bytes
  | [] => some []
  | c :: d :: cs => do
    let x ← Json.hexValue c
    let y ← Json.hexValue d
    let b ← hexPairs cs
    some (UInt8.ofNat (16 * x + y) :: b)
  | [_] => none

def hexDecode (s : String) : Except String Bytes :=
  match hexPairs s.toList with
  | some b => .ok b
  | none => .error "Invalid hexadecimal string"

theorem hexValue_hexDigit : ∀ n < 16, Json.hexValue (Json.hexDigit n) = some n := by decide

theorem hexDigit_mem : ∀ n < 16, Json.hexDigit n ∈ "0123456789abcdef".toList := by decide

theorem hexPairs_flatMap (b : Bytes) :
    hexPairs (b.flatMap fun x => [Json.hexDigit (x.toNat / 16), Json.hexDigit (x.toNat % 16)]) =
      some b := by
  induction b with
  | nil => rfl
  | cons x b ih =>
    have hlt := x.toNat_lt
    have hx : UInt8.ofNat (16 * (x.toNat / 16) + x.toNat % 16) = x := by
      rw [Nat.div_add_mod, UInt8.ofNat_toNat]
    rw [List.flatMap_cons, List.cons_append, List.cons_append, List.nil_append, hexPairs,
      hexValue_hexDigit _ (by omega), hexValue_hexDigit _ (by omega), ih]
    exact congrArg (fun x => some (x :: b)) hx

/-- The codecs, with a JSON parser. -/
def codecWith (parse : List Char → Option Json) : Codec where
  toStringPretty j := String.ofList (Json.render Json.pretty 0 j)
  toString j := String.ofList (Json.render Json.compact 0 j)
  fromStr s := match parse s.toList with
    | some j => .ok j
    | none => .error "invalid JSON"
  hexEncode := hexEncode
  hexDecode := hexDecode

theorem hexReadsBack_codecWith (parse : List Char → Option Json) : (codecWith parse).HexReadsBack where
  decode_encode b := by
    change hexDecode (hexEncode b) = _
    unfold hexDecode hexEncode
    rw [String.toList_ofList, hexPairs_flatMap]
  digits b c hc := by
    change c ∈ (hexEncode b).toList at hc
    rw [hexEncode, String.toList_ofList, List.mem_flatMap] at hc
    obtain ⟨x, -, hc⟩ := hc
    have hlt := x.toNat_lt
    rcases List.mem_pair.1 hc with rfl | rfl
    · exact hexDigit_mem _ (by omega)
    · exact hexDigit_mem _ (by omega)

/-- The codecs with the recursion limit of `serde_json`. -/
def serdeJson : Codec := codecWith (Json.parse 127)

theorem readsBackShallow_serdeJson : serdeJson.ReadsBackShallow where
  pretty j h := by
    simp only [serdeJson, codecWith, String.toList_ofList, Json.parse_render Json.blank_pretty]
    rw [if_pos (by omega)]
  pretty_deep j h := by
    refine ⟨"invalid JSON", ?_⟩
    simp only [serdeJson, codecWith, String.toList_ofList, Json.parse_render Json.blank_pretty]
    rw [if_neg (by omega)]

theorem printsCompact_serdeJson : serdeJson.PrintsCompact := fun _ => rfl

theorem readsCompact_serdeJson : serdeJson.ReadsCompact where
  compact j h := by
    simp only [serdeJson, codecWith, String.toList_ofList, Json.parse_render Json.blank_compact]
    rw [if_pos (by omega)]
  trailing j text := by
    refine ⟨"invalid JSON", ?_⟩
    have hbrace : ("\x7b" ++ text).toList = '{' :: text.toList := String.toList_append
    simp only [serdeJson, codecWith, String.toList_append, String.toList_ofList, hbrace,
      Json.parse_render_append Json.blank_compact]

/-- The codecs without a recursion limit. -/
def serdeJsonUnlimited : Codec := codecWith Json.parseAny

theorem hexReadsBack_serdeJsonUnlimited : serdeJsonUnlimited.HexReadsBack :=
  hexReadsBack_codecWith _

theorem readsBack_serdeJsonUnlimited : serdeJsonUnlimited.ReadsBack where
  pretty j := by
    simp only [serdeJsonUnlimited, codecWith, String.toList_ofList,
      Json.parseAny_render Json.blank_pretty]
  compact j := by
    simp only [serdeJsonUnlimited, codecWith, String.toList_ofList,
      Json.parseAny_render Json.blank_compact]

theorem printsCompact_serdeJsonUnlimited : serdeJsonUnlimited.PrintsCompact := fun _ => rfl

theorem readsCompact_serdeJsonUnlimited : serdeJsonUnlimited.ReadsCompact where
  compact j _ := readsBack_serdeJsonUnlimited.compact j
  trailing j text := by
    refine ⟨"invalid JSON", ?_⟩
    have hbrace : ("\x7b" ++ text).toList = '{' :: text.toList := String.toList_append
    simp only [serdeJsonUnlimited, codecWith, String.toList_append, String.toList_ofList, hbrace,
      Json.parseAny_render_append Json.blank_compact]

end SecureABE.Core
